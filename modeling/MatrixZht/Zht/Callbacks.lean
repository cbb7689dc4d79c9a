import Mathlib.Algebra.Order.Ring.Int
import MatrixZht.Lib.Run
import MatrixZht.Zht.Replies
import MatrixZht.Zht.Routing

namespace MatrixZht
open Lib

/-- A callback on the queue, and the connection its answer goes to. -/
structure WorkerThreadArg where
  zpack : ZPack
  addr : Nat

def WorkerThreadArg.lease (pwta : WorkerThreadArg) : Int := atoi (cstr (pwta.zpack.lease.getD []))

/-- Where `threaded_state_change_callback` is. `seen` is what its polls have read. -/
inductive Polling where
  | idle
  | due (pwta : WorkerThreadArg) (seen : List (Option Str)) (mslapsed : Int)
  | polled (pwta : WorkerThreadArg) (seen : List (Option Str)) (mslapsed : Int) (result : Str)

/-- A callback that has been answered. -/
structure Answered where
  pwta : WorkerThreadArg
  seen : List (Option Str)
  sent : Sent

/-- A server, its queue of callbacks and the thread that works it off. -/
structure CallbackServer where
  pmap : NoVoHT
  pqueue : List WorkerThreadArg := []
  firstAsync : Bool := false
  polling : Polling := .idle
  answered : List Answered := []

/-- The server thread serves a request; the other one takes a callback, polls, and answers or
sleeps. Nothing is assumed of what a poll finds, since it reads a map that may be changing. -/
inductive CallbackAct where
  | serve (fd : Nat) (recvbuf : Str)
  | pop
  | poll (found : Option Str)
  | next

/-- The interval is initialised before the configuration is read, and keeps its default. -/
def sccbPollInterval : Int := 1

namespace CallbackServer

section Step

variable (hash : Str → Nat) (resizeDue : Int → Nat → Bool) (serialize : ZPack → Str)

/-- The first callback starts the thread. -/
def serve (s : CallbackServer) (fd : Nat) (recvbuf : Str) : CallbackServer :=
  let worker := (Sccb.recvsend hash resizeDue serialize fd ⟨s.pmap, []⟩ recvbuf).1
  { s with
    pmap := worker.pmap
    pqueue := s.pqueue ++ worker.pqueue.map (⟨·, fd⟩)
    firstAsync := s.firstAsync || !worker.pqueue.isEmpty }

def pop (s : CallbackServer) : Option CallbackServer :=
  match s.polling, s.pqueue with
  | .idle, pwta :: pqueue =>
    if s.firstAsync then some { s with pqueue, polling := .due pwta [] 0 } else none
  | _, _ => none

def poll (s : CallbackServer) (found : Option Str) : Option CallbackServer :=
  match s.polling with
  | .due pwta seen mslapsed =>
    let result := HTWorker.stateChangeCallbackInternal found pwta.zpack
    some { s with polling := .polled pwta (seen ++ [found]) mslapsed result }
  | _ => none

def sendBack (s : CallbackServer) (pwta : WorkerThreadArg) (seen : List (Option Str))
    (result : Str) : CallbackServer :=
  { s with
    polling := .idle
    answered := s.answered ++ [⟨pwta, seen, TCPStub.sendBack pwta.addr result⟩] }

/-- The loop goes on until the lease is over. An overflow of `mslapsed` is undefined. -/
def next (s : CallbackServer) : Option CallbackServer :=
  match s.polling with
  | .polled pwta seen mslapsed result =>
    if result = recSucc then some (s.sendBack pwta seen result)
    else
      let mslapsed := mslapsed + sccbPollInterval
      if IsInt mslapsed then
        if pwta.lease ≤ mslapsed then some (s.sendBack pwta seen result)
        else some { s with polling := .due pwta seen mslapsed }
      else none
  | _ => none

def step (s : CallbackServer) : CallbackAct → Option CallbackServer
  | .serve fd recvbuf => some (s.serve hash resizeDue serialize fd recvbuf)
  | .pop => s.pop
  | .poll found => s.poll found
  | .next => s.next

end Step

end CallbackServer

/-- The callback that a request asks for. -/
def CallbackAct.callback : CallbackAct → Option WorkerThreadArg
  | .serve fd recvbuf =>
    let zpack := strToZpack (cstr (cstr recvbuf))
    if zpack.opcode.getD [] = opcStchgcb then some ⟨zpack, fd⟩ else none
  | _ => none

def CallbackAct.isServe : CallbackAct → Bool
  | .serve _ _ => true
  | _ => false

def Polling.args : Polling → List WorkerThreadArg
  | .idle => []
  | .due pwta _ _ => [pwta]
  | .polled pwta _ _ _ => [pwta]

/-- What a poll has found is the value that the callback waits for. -/
def WorkerThreadArg.Meets (pwta : WorkerThreadArg) (found : Option Str) : Prop :=
  pwta.zpack.key.getD [] ≠ [] ∧
    ∃ ret, found = some ret ∧ pwta.zpack.val.getD [] = (strToZpack ret).val.getD []

/-- Polls that leave a callback waiting: none meets the value, and the lease is not over. -/
structure WorkerThreadArg.Waits (pwta : WorkerThreadArg) (seen : List (Option Str)) : Prop where
  missed : ∀ found ∈ seen, ¬ pwta.Meets found
  lease : seen ≠ [] → seen.length < pwta.lease

/-- The answer is the result of the last poll, made as soon as it meets the value or the lease is
over. -/
def Answered.Ok (a : Answered) : Prop :=
  ∃ seen found, a.seen = seen ++ [found] ∧ a.pwta.Waits seen ∧
    a.sent = TCPStub.sendBack a.pwta.addr
      (HTWorker.stateChangeCallbackInternal found a.pwta.zpack) ∧
    (a.pwta.Meets found ∨ a.pwta.lease ≤ a.seen.length)

def Polling.Ok : Polling → Prop
  | .idle => True
  | .due pwta seen mslapsed => pwta.Waits seen ∧ mslapsed = seen.length
  | .polled pwta seen mslapsed result => ∃ seen' found, seen = seen' ++ [found] ∧
    pwta.Waits seen' ∧ mslapsed = seen'.length ∧
    result = HTWorker.stateChangeCallbackInternal found pwta.zpack

section Poll

variable {pwta : WorkerThreadArg} {seen : List (Option Str)} {found : Option Str}

theorem stateChangeCallbackInternal_eq_recSucc :
    HTWorker.stateChangeCallbackInternal found pwta.zpack = recSucc ↔ pwta.Meets found := by
  have hnone : recNonexistKey ≠ recSucc := by decide
  have htry : recSccbPollTry ≠ recSucc := by decide
  have hempty : recEmptyKey ≠ recSucc := by decide
  dsimp only [HTWorker.stateChangeCallbackInternal, WorkerThreadArg.Meets]
  by_cases hkey : pwta.zpack.key.getD [] = []
  · simp [hkey, hempty]
  · cases found with
    | none => simp [hkey, hnone]
    | some ret =>
      by_cases hval : pwta.zpack.val.getD [] = (strToZpack ret).val.getD []
      · simp [hkey, hval]
      · simp [hkey, hval, htry]

theorem waits_nil : pwta.Waits [] where
  missed := by simp
  lease h := absurd rfl h

theorem WorkerThreadArg.Waits.concat (h : pwta.Waits seen) (hmissed : ¬ pwta.Meets found)
    (hlease : seen.length + 1 < pwta.lease) : pwta.Waits (seen ++ [found]) where
  missed := by
    intro t ht
    rcases List.mem_append.1 ht with ht | ht
    · exact h.missed t ht
    · rwa [List.mem_singleton.1 ht]
  lease _ := by
    rw [List.length_append, List.length_singleton]
    exact_mod_cast hlease

/-- The polls for a callback are as many as its lease allows, and one at least. -/
def WorkerThreadArg.maxPolls (pwta : WorkerThreadArg) : Nat := max 1 pwta.lease.toNat

theorem WorkerThreadArg.Waits.length_lt (h : pwta.Waits seen) : seen.length < pwta.maxPolls := by
  by_cases hnil : seen = []
  · rw [hnil]
    exact lt_max_of_lt_left one_pos
  · have hlease := h.lease hnil
    apply lt_max_of_lt_right
    omega

theorem WorkerThreadArg.Waits.isInt (h : pwta.Waits seen) :
    IsInt ((seen.length : Int) + sccbPollInterval) := by
  have hmax : IsInt pwta.lease := isInt_toInt32 _
  unfold IsInt sccbPollInterval at *
  by_cases hnil : seen = []
  · rw [hnil]
    decide
  · have hlease := h.lease hnil
    omega

end Poll

namespace CallbackServer

section Run

variable {hash : Str → Nat} {resizeDue : Int → Nat → Bool} {serialize : ZPack → Str}
  {s s' : CallbackServer} {a : CallbackAct} {as : List CallbackAct}

theorem pqueue_run (w : HTWorker) (fd : Nat) (buf : Str) :
    (Sccb.run hash resizeDue serialize fd w buf).worker.pqueue =
      w.pqueue ++
        if (strToZpack buf).opcode.getD [] = opcStchgcb then [strToZpack buf] else [] := by
  have hother {opcode : Str} (ho : (strToZpack buf).opcode.getD [] = opcode)
      (hne : opcode ≠ opcStchgcb) :
      w.pqueue = w.pqueue ++
        if (strToZpack buf).opcode.getD [] = opcStchgcb then [strToZpack buf] else [] := by
    rw [ho, if_neg hne, List.append_nil]
  simp only [Sccb.run]
  split
  · next ho => exact hother ho (by decide)
  split
  · next ho => exact hother ho (by decide)
  split
  · next ho => exact hother ho (by decide)
  split
  · next ho =>
    unfold Sccb.compareSwap
    split
    · exact hother ho (by decide)
    · exact hother ho (by decide)
  split
  · next ho => exact hother ho (by decide)
  split
  · next ho => rfl
  · next ho => exact (List.append_nil _).symm

theorem serve_pqueue (fd : Nat) (recvbuf : Str) :
    (s.serve hash resizeDue serialize fd recvbuf).pqueue =
      s.pqueue ++ (CallbackAct.serve fd recvbuf).callback.toList := by
  dsimp only [serve, Sccb.recvsend, CallbackAct.callback]
  rw [pqueue_run]
  by_cases ho : (strToZpack (cstr (cstr recvbuf))).opcode.getD [] = opcStchgcb
  · rw [if_pos ho, if_pos ho]
    rfl
  · rw [if_neg ho, if_neg ho]
    rfl

/-- A callback that waits has started the thread. -/
structure Ok (s : CallbackServer) : Prop where
  started : s.pqueue ≠ [] → s.firstAsync = true
  polling : s.polling.Ok
  answered : ∀ a ∈ s.answered, a.Ok

theorem serve_ok (h : s.Ok) (fd : Nat) (recvbuf : Str) :
    (s.serve hash resizeDue serialize fd recvbuf).Ok where
  started := by
    intro hne
    dsimp only [serve] at hne ⊢
    rw [Bool.or_eq_true, Bool.not_eq_true', List.isEmpty_eq_false_iff]
    by_cases hold : s.pqueue = []
    · right
      intro hnew
      exact hne (by rw [hold, hnew]; rfl)
    · exact Or.inl (h.started hold)
  polling := h.polling
  answered := h.answered

theorem pop_ok (h : s.Ok) (hs : s.pop = some s') :
    s'.Ok ∧ ∃ pwta, s.polling = .idle ∧ s.pqueue = pwta :: s'.pqueue ∧
      s'.polling = .due pwta [] 0 ∧ s'.answered = s.answered := by
  unfold pop at hs
  split at hs
  · next pwta pqueue hidle hqueue =>
    rw [Option.ite_none_right_eq_some] at hs
    obtain ⟨hstarted, hs⟩ := hs
    cases hs
    exact ⟨⟨fun _ => hstarted, ⟨waits_nil, rfl⟩, h.answered⟩, pwta, hidle, hqueue, rfl, rfl⟩
  · cases hs

theorem poll_ok {found : Option Str} (h : s.Ok) (hs : s.poll found = some s') :
    s'.Ok ∧ s'.pqueue = s.pqueue ∧ s'.answered = s.answered ∧
      ∃ pwta seen mslapsed result, s.polling = .due pwta seen mslapsed ∧
        s'.polling = .polled pwta (seen ++ [found]) mslapsed result := by
  have hpolling := h.polling
  unfold poll at hs
  split at hs
  · next pwta seen mslapsed hdue =>
    cases hs
    rw [hdue] at hpolling
    refine ⟨⟨h.started, ?_, h.answered⟩, rfl, rfl, pwta, seen, mslapsed, _, hdue, rfl⟩
    exact ⟨seen, found, rfl, hpolling.1, hpolling.2, rfl⟩
  · cases hs

theorem sendBack_ok {pwta : WorkerThreadArg} {seen : List (Option Str)} {found : Option Str}
    (h : s.Ok) (hwaits : pwta.Waits seen)
    (hend : pwta.Meets found ∨ pwta.lease ≤ seen.length + 1) :
    (s.sendBack pwta (seen ++ [found])
      (HTWorker.stateChangeCallbackInternal found pwta.zpack)).Ok where
  started := h.started
  polling := trivial
  answered := by
    intro a ha
    rcases List.mem_append.1 ha with ha | ha
    · exact h.answered a ha
    · rw [List.mem_singleton.1 ha]
      refine ⟨seen, found, rfl, hwaits, rfl, hend.imp_right fun hle => ?_⟩
      simpa using hle

/-- After a poll the callback is answered, or another poll is due. -/
theorem next_ok (h : s.Ok) (hs : s.next = some s') :
    s'.Ok ∧ s'.pqueue = s.pqueue ∧
      ∃ pwta seen mslapsed result, s.polling = .polled pwta seen mslapsed result ∧
        ((s'.polling = .idle ∧
            ∃ sent, s'.answered = s.answered ++ [⟨pwta, seen, sent⟩]) ∨
          s'.polling = .due pwta seen (mslapsed + sccbPollInterval) ∧
            s'.answered = s.answered) := by
  have hpolling := h.polling
  unfold next at hs
  split at hs
  · next pwta seen mslapsed result hpolled =>
    rw [hpolled] at hpolling
    obtain ⟨seen, found, rfl, hwaits, rfl, rfl⟩ := hpolling
    split at hs
    · next hsucc =>
      cases hs
      have hmeets := stateChangeCallbackInternal_eq_recSucc.1 hsucc
      exact ⟨sendBack_ok h hwaits (Or.inl hmeets), rfl, pwta, _, _, _, hpolled,
        Or.inl ⟨rfl, _, rfl⟩⟩
    · next hmissed =>
      rw [Option.ite_none_right_eq_some] at hs
      obtain ⟨_, hs⟩ := hs
      split at hs
      · next hover =>
        cases hs
        exact ⟨sendBack_ok h hwaits (Or.inr hover), rfl, pwta, _, _, _, hpolled,
          Or.inl ⟨rfl, _, rfl⟩⟩
      · next hlease =>
        cases hs
        refine ⟨⟨h.started, ⟨?_, ?_⟩, h.answered⟩, rfl, pwta, _, _, _, hpolled,
          Or.inr ⟨rfl, rfl⟩⟩
        · exact hwaits.concat (fun hmeets => hmissed
            (stateChangeCallbackInternal_eq_recSucc.2 hmeets)) (not_le.1 hlease)
        · rw [List.length_append, List.length_singleton, Nat.cast_add]
          rfl
  · cases hs

/-- The callbacks asked for: answered, being polled for, and waiting, in this order. -/
def callbacks (s : CallbackServer) : List WorkerThreadArg :=
  s.answered.map Answered.pwta ++ s.polling.args ++ s.pqueue

theorem step_ok (h : s.Ok) (hs : s.step hash resizeDue serialize a = some s') :
    s'.Ok ∧ s'.callbacks = s.callbacks ++ a.callback.toList := by
  cases a with
  | serve fd recvbuf =>
    cases hs
    refine ⟨serve_ok h fd recvbuf, ?_⟩
    rw [callbacks, serve_pqueue, ← List.append_assoc]
    rfl
  | pop =>
    obtain ⟨hok, pwta, hidle, hqueue, hdue, hanswered⟩ := pop_ok h hs
    refine ⟨hok, ?_⟩
    simp [callbacks, hidle, hqueue, hdue, hanswered, Polling.args, CallbackAct.callback]
  | poll found =>
    obtain ⟨hok, hqueue, hanswered, pwta, seen, mslapsed, result, hdue, hpolled⟩ := poll_ok h hs
    refine ⟨hok, ?_⟩
    simp [callbacks, hqueue, hdue, hpolled, hanswered, Polling.args, CallbackAct.callback]
  | next =>
    obtain ⟨hok, hqueue, pwta, seen, mslapsed, result, hpolled,
      ⟨hidle, sent, hanswered⟩ | ⟨hdue, hanswered⟩⟩ := next_ok h hs
    · refine ⟨hok, ?_⟩
      simp [callbacks, hqueue, hidle, hpolled, hanswered, Polling.args, CallbackAct.callback]
    · refine ⟨hok, ?_⟩
      simp [callbacks, hqueue, hdue, hpolled, hanswered, Polling.args, CallbackAct.callback]

theorem run_ok {pmap : NoVoHT}
    (h : runActs (step hash resizeDue serialize) { pmap } as = some s) :
    s.Ok ∧ s.callbacks = as.filterMap CallbackAct.callback := by
  induction as using List.reverseRecOn generalizing s with
  | nil =>
    cases h
    exact ⟨⟨fun hne => absurd rfl hne, trivial, by simp⟩, rfl⟩
  | append_singleton as a ih =>
    obtain ⟨s₁, h₁, hstep⟩ := exists_of_runActs_concat h
    obtain ⟨hok, hcallbacks⟩ := ih h₁
    obtain ⟨hok', hcallbacks'⟩ := step_ok hok hstep
    refine ⟨hok', ?_⟩
    rw [hcallbacks', hcallbacks, List.filterMap_append]
    cases hcallback : a.callback with
    | none => simp [hcallback]
    | some pwta => simp [hcallback]

end Run

end CallbackServer

/-- Callbacks are answered one after the other, in the order in which they have been asked for.
Each is answered once, on its own connection, as soon as a poll meets the value or the lease is
over. -/
theorem callbacks_answered {hash : Str → Nat} {resizeDue : Int → Nat → Bool}
    {serialize : ZPack → Str} {pmap : NoVoHT} {as : List CallbackAct} {s : CallbackServer}
    (h : runActs (CallbackServer.step hash resizeDue serialize) { pmap } as = some s) :
    as.filterMap CallbackAct.callback =
        s.answered.map Answered.pwta ++ s.polling.args ++ s.pqueue ∧
      ∀ a ∈ s.answered, a.Ok := by
  obtain ⟨hok, hcallbacks⟩ := CallbackServer.run_ok h
  exact ⟨hcallbacks.symm, hok.answered⟩

/-- A callback waits for a value that another client inserts after the first poll; one for another
value of the same key runs out of its lease. -/
def callbackRun : List CallbackAct :=
  let request (opcode val : Str) (lease : Int) : ZPack :=
    Cluster.requestPack opcode "k".toList val [] lease
  let stored := some (zpackToStr (request opcInsert "v".toList 1))
  [.serve 3 (zpackToStr (request opcStchgcb "v".toList 3)),
    .serve 4 (zpackToStr (request opcStchgcb "w".toList 1)), .pop, .poll none, .next,
    .serve 5 (zpackToStr (request opcInsert "v".toList 1)), .poll stored, .next, .pop, .poll stored,
    .next]

/-- A server with a table of one chain. -/
def callbackServer (as : List CallbackAct) : Option CallbackServer :=
  runActs (CallbackServer.step (fun _ => 0) (fun _ _ => false) zpackToStr)
    { pmap := { size := 1 } } as

theorem callbacks_answered_two :
    ∃ s, callbackServer callbackRun = some s ∧
      s.answered.map Answered.sent = [⟨3, "000".toList⟩, ⟨4, "-91".toList⟩] ∧
      ∀ a ∈ s.answered, a.Ok := by
  have hrun : (callbackServer callbackRun).any (fun s =>
      s.answered.map Answered.sent = [⟨3, "000".toList⟩, ⟨4, "-91".toList⟩]) = true := by
    decide +kernel
  obtain ⟨s, hs, hsent⟩ := (Option.any_eq_true _ _).1 hrun
  exact ⟨s, hs, of_decide_eq_true hsent, (callbacks_answered hs).2⟩

/-- The steps of the thread for one callback, at most. -/
def WorkerThreadArg.budget (pwta : WorkerThreadArg) : Nat := 2 * pwta.maxPolls + 1

def Polling.work : Polling → Nat
  | .idle => 0
  | .due pwta seen _ => 2 * (pwta.maxPolls - seen.length)
  | .polled pwta seen _ _ => 2 * (pwta.maxPolls - seen.length) + 1

/-- The steps of the thread until the queue is empty, at most. -/
def CallbackServer.work (s : CallbackServer) : Nat :=
  s.polling.work + (s.pqueue.map WorkerThreadArg.budget).sum

namespace CallbackServer

section Completion

variable {hash : Str → Nat} {resizeDue : Int → Nat → Bool} {serialize : ZPack → Str}
  {s s' : CallbackServer} {a : CallbackAct} {as : List CallbackAct}

theorem work_serve (fd : Nat) (recvbuf : Str) :
    (s.serve hash resizeDue serialize fd recvbuf).work =
      s.work + (((CallbackAct.serve fd recvbuf).callback.toList).map
        WorkerThreadArg.budget).sum := by
  rw [work, serve_pqueue, List.map_append, List.sum_append, ← Nat.add_assoc]
  rfl

theorem work_step (h : s.Ok) (ha : a.isServe = false)
    (hs : s.step hash resizeDue serialize a = some s') : s'.work + 1 ≤ s.work := by
  have hpolling := h.polling
  cases a with
  | serve fd recvbuf => cases ha
  | pop =>
    obtain ⟨_, pwta, hidle, hqueue, hdue, _⟩ := pop_ok h hs
    simp only [work, hidle, hqueue, hdue, Polling.work, WorkerThreadArg.budget, List.map_cons,
      List.sum_cons, List.length_nil]
    omega
  | poll found =>
    obtain ⟨_, hqueue, _, pwta, seen, mslapsed, result, hdue, hpolled⟩ := poll_ok h hs
    rw [hdue] at hpolling
    have hlt := hpolling.1.length_lt
    simp only [work, hqueue, hdue, hpolled, Polling.work, List.length_append,
      List.length_singleton]
    omega
  | next =>
    obtain ⟨_, hqueue, pwta, seen, mslapsed, result, hpolled, ⟨hidle, _⟩ | ⟨hdue, _⟩⟩ :=
      next_ok h hs
    · simp only [work, hqueue, hidle, hpolled, Polling.work]
      omega
    · simp only [work, hqueue, hdue, hpolled, Polling.work]
      omega

/-- The thread can go on as long as there is a callback to answer. -/
theorem exists_step (h : s.Ok) (hwork : s.polling.args ++ s.pqueue ≠ []) :
    ∃ a, a.isServe = false ∧ (s.step hash resizeDue serialize a).isSome := by
  have hpolling := h.polling
  cases hp : s.polling with
  | idle =>
    rw [hp] at hwork
    cases hqueue : s.pqueue with
    | nil => exact absurd hqueue hwork
    | cons pwta pqueue =>
      have hstarted := h.started (by rw [hqueue]; exact List.cons_ne_nil _ _)
      exact ⟨.pop, rfl, by simp [step, pop, hp, hqueue, hstarted]⟩
  | due pwta seen mslapsed => exact ⟨.poll none, rfl, by simp [step, poll, hp]⟩
  | polled pwta seen mslapsed result =>
    rw [hp] at hpolling
    obtain ⟨seen, found, rfl, hwaits, rfl, _⟩ := hpolling
    refine ⟨.next, rfl, ?_⟩
    simp only [step, next, hp, if_pos hwaits.isInt]
    split
    · rfl
    · split <;> rfl

theorem work_run {pmap : NoVoHT}
    (h : runActs (step hash resizeDue serialize) { pmap } as = some s) :
    (as.filter fun a => !a.isServe).length + s.work ≤
      ((as.filterMap CallbackAct.callback).map WorkerThreadArg.budget).sum := by
  induction as using List.reverseRecOn generalizing s with
  | nil =>
    cases h
    rfl
  | append_singleton as a ih =>
    obtain ⟨s₁, h₁, hstep⟩ := exists_of_runActs_concat h
    have hle := ih h₁
    rw [List.filter_append, List.filterMap_append, List.map_append, List.sum_append,
      List.length_append]
    cases ha : a.isServe with
    | true =>
      cases a with
      | serve fd recvbuf =>
        cases hstep
        have hcallback : [CallbackAct.serve fd recvbuf].filterMap CallbackAct.callback =
            (CallbackAct.serve fd recvbuf).callback.toList := by
          cases hc : (CallbackAct.serve fd recvbuf).callback <;> simp [hc]
        rw [work_serve, hcallback, List.filter_cons_of_neg (by simp [ha])]
        simp only [List.filter_nil, List.length_nil]
        omega
      | _ => cases ha
    | false =>
      have hdown := work_step (run_ok h₁).1 ha hstep
      rw [List.filter_cons_of_pos (by simp [ha])]
      simp only [List.filter_nil, List.length_singleton]
      omega

end Completion

end CallbackServer

/-- Every callback is answered: the thread can go on until all have been, and its steps are bounded
by the polls their leases allow, whatever the server does meanwhile. -/
theorem callbacks_complete {hash : Str → Nat} {resizeDue : Int → Nat → Bool}
    {serialize : ZPack → Str} {pmap : NoVoHT} {as : List CallbackAct} {s : CallbackServer}
    (h : runActs (CallbackServer.step hash resizeDue serialize) { pmap } as = some s) :
    (as.filter fun a => !a.isServe).length ≤
        ((as.filterMap CallbackAct.callback).map WorkerThreadArg.budget).sum ∧
      ((∃ a, a.isServe = false ∧ (s.step hash resizeDue serialize a).isSome) ∨
        s.answered.map Answered.pwta = as.filterMap CallbackAct.callback) := by
  obtain ⟨hok, hcallbacks⟩ := CallbackServer.run_ok h
  refine ⟨(Nat.le_add_right _ _).trans (CallbackServer.work_run h), ?_⟩
  by_cases hwork : s.polling.args ++ s.pqueue = []
  · right
    rw [← hcallbacks, CallbackServer.callbacks, List.append_assoc, hwork, List.append_nil]
  · exact Or.inl (CallbackServer.exists_step hok hwork)

theorem callbacks_complete_two :
    ∃ s, callbackServer callbackRun = some s ∧
      (callbackRun.filter fun a => !a.isServe).length ≤ 10 := by
  have hsome : (callbackServer callbackRun).isSome = true := by
    decide +kernel
  obtain ⟨s, hs⟩ := Option.isSome_iff_exists.1 hsome
  have hbudget : ((callbackRun.filterMap CallbackAct.callback).map
      WorkerThreadArg.budget).sum = 10 := by
    decide +kernel
  obtain ⟨hle, _⟩ := callbacks_complete hs
  rw [hbudget] at hle
  exact ⟨s, hs, hle⟩

end MatrixZht
