import Mathlib.Algebra.GroupWithZero.Nat
import MatrixZht.Lib.Run
import MatrixZht.Util

namespace MatrixZht
open Lib

/-- `msgbuf` of `IPC::Msg`. -/
structure MsgBuf where
  mtype : Nat
  mdata : Str
deriving DecidableEq

def ipcMaxMsgSz : Nat := 102400

/-- The bytes of an `int`, lowest first. -/
def intBytes (n : Nat) : Str :=
  [n % 256, n / 256 % 256, n / 65536 % 256, n / 16777216 % 256].map Char.ofNat

def ofIntBytes (bytes : Str) : Nat := bytes.foldr (fun c n => c.toNat + 256 * n) 0

/-- `msgrcv`: the first message of the type, or the first of all where the type is 0. -/
def msgrcv (mType : Nat) : List MsgBuf → Option (MsgBuf × List MsgBuf)
  | [] => none
  | m :: queue =>
    if mType = 0 ∨ m.mtype = mType then some (m, queue)
    else (msgrcv mType queue).map fun r => (r.1, m :: r.2)

def queueBytes (queue : List MsgBuf) : Nat := (queue.map fun m => m.mdata.length).sum

/-- `Msg::Snd` on a queue of `qbytes` bytes: `none` where `msgsnd` waits for room, and `false` for
what it does not send. A system whose limit `msgmax` is below `ipcMaxMsgSz` refuses more. -/
def snd (qbytes : Nat) (queue : List MsgBuf) (m : MsgBuf) : Option (Bool × List MsgBuf) :=
  if m.mtype = 0 ∨ ipcMaxMsgSz < m.mdata.length then some (false, queue)
  else if queueBytes queue + m.mdata.length ≤ qbytes ∧ queue.length < qbytes then
    some (true, queue ++ [m])
  else none

/-- Where a client stands in `MsgClient::xmit`. -/
inductive Xmit
  | out
  /-- about to send its registration -/
  | unregistered (data : Str)
  /-- waiting for an address -/
  | registering (data : Str)
  /-- about to send its request -/
  | ready (data : Str)
deriving DecidableEq

/-- `MsgClient`, with the requests it has sent and the replies it has received. -/
structure MsgClient where
  myAddress : Nat
  xmit : Xmit
  sent : List Str
  got : List Str

/-- Where the broker stands in its `serve` and in `MsgServer::recv`. -/
inductive Phase
  | receiving
  /-- about to send the next address -/
  | registering
  | serving (mtype : Nat) (data : Str)
  | answering (mtype : Nat) (data : Str) (ans : Str)
  /-- gone, with the request it had taken -/
  | exited (mtype : Nat) (data : Str)
deriving DecidableEq

/-- A request that was answered, with the type of its message. -/
structure MqExchange where
  mtype : Nat
  data : Str
  ans : Str

/-- The clients, the two queues and the `MsgServer` of the broker, with what it has answered. -/
structure Broker (ι : Type) where
  req : List MsgBuf
  rep : List MsgBuf
  nextClient : Nat
  phase : Phase
  log : List MqExchange
  clients : ι → MsgClient

inductive BrokerAct (ι : Type)
  | xmit (c : ι) (data : Str)
  | register (c : ι)
  | address (c : ι)
  | request (c : ι)
  | recv (c : ι)
  | take
  | assign
  /-- the result of `MPIProxy::sendrecv` -/
  | answer (ans : Option Str)
  | reply
deriving DecidableEq

section Step

variable {ι : Type} [DecidableEq ι]

def initBroker : Broker ι :=
  { req := [], rep := [], nextClient := 256, phase := .receiving, log := [],
    clients := fun _ => ⟨0, .out, [], []⟩ }

def Broker.setClient (b : Broker ι) (c : ι) (client : MsgClient) : Broker ι :=
  { b with clients := Function.update b.clients c client }

/-- The address after `nextClient`. -/
def bumpClient (nextClient : Nat) : Nat :=
  if nextClient + 1 > 32000 then 3 else nextClient + 1

/-- A call of `MsgClient::xmit`. -/
def startXmit (client : MsgClient) (data : Str) : MsgClient :=
  if client.myAddress = 0 then { client with xmit := .unregistered data }
  else { client with xmit := .ready data }

def Broker.step (qbytes : Nat) (b : Broker ι) : BrokerAct ι → Option (Broker ι)
  | .xmit c data =>
    if (b.clients c).xmit = .out then some (b.setClient c (startXmit (b.clients c) data)) else none
  | .register c =>
    match (b.clients c).xmit with
    | .unregistered data => do
      let (_, req) ← snd qbytes b.req ⟨1, "R".toList⟩
      some { b.setClient c { b.clients c with xmit := .registering data } with req := req }
    | _ => none
  | .address c =>
    match (b.clients c).xmit with
    | .registering data => do
      let (m, rep) ← msgrcv 2 b.rep
      let client := { b.clients c with myAddress := ofIntBytes m.mdata, xmit := .ready data }
      some { b.setClient c client with rep := rep }
    | _ => none
  | .request c =>
    match (b.clients c).xmit with
    | .ready data => do
      let (ok, req) ← snd qbytes b.req ⟨(b.clients c).myAddress, data⟩
      let sent := if ok then (b.clients c).sent ++ [data] else (b.clients c).sent
      some { b.setClient c { b.clients c with xmit := .out, sent := sent } with req := req }
    | _ => none
  | .recv c =>
    if (b.clients c).xmit = .out ∧ (b.clients c).myAddress ≠ 0 then do
      let (m, rep) ← msgrcv (b.clients c).myAddress b.rep
      let got := (b.clients c).got ++ [m.mdata]
      some { b.setClient c { b.clients c with got := got } with rep := rep }
    else none
  | .take =>
    match b.phase with
    | .receiving => do
      let (m, req) ← msgrcv 0 b.req
      some { b with
        req := req
        phase := if m.mtype = 1 then .registering else .serving m.mtype m.mdata }
    | _ => none
  | .assign =>
    match b.phase with
    | .registering => do
      let (_, rep) ← snd qbytes b.rep ⟨2, intBytes b.nextClient⟩
      some { b with rep := rep, phase := .receiving, nextClient := bumpClient b.nextClient }
    | _ => none
  | .answer ans =>
    match b.phase with
    | .serving mtype data =>
      some { b with phase := (ans.map (.answering mtype data)).getD (.exited mtype data) }
    | _ => none
  | .reply =>
    match b.phase with
    | .answering mtype data ans => do
      let (ok, rep) ← snd qbytes b.rep ⟨mtype, ans⟩
      if ok then
        some { b with rep := rep, phase := .receiving, log := b.log ++ [⟨mtype, data, ans⟩] }
      else some { b with phase := .exited mtype data }
    | _ => none

end Step

/-- What the messages of one type carry. -/
def ofType (t : Nat) (queue : List MsgBuf) : List Str :=
  (queue.filter (·.mtype = t)).map MsgBuf.mdata

section Queue

variable {qbytes t u : Nat} {queue queue' : List MsgBuf} {m : MsgBuf} {ok : Bool}

theorem ofIntBytes_intBytes {n : Nat} (h : n < 2 ^ 31) : ofIntBytes (intBytes n) = n := by
  have hbyte (k : Nat) : (Char.ofNat (k % 256)).toNat = k % 256 := by
    have hvalid : (k % 256).isValidChar := Or.inl (by omega)
    rw [Char.ofNat, dif_pos hvalid]
    rfl
  simp only [ofIntBytes, intBytes, List.map_cons, List.map_nil, List.foldr_cons, List.foldr_nil,
    hbyte]
  omega

theorem ofType_append (t : Nat) (queue queue' : List MsgBuf) :
    ofType t (queue ++ queue') = ofType t queue ++ ofType t queue' := by
  rw [ofType, List.filter_append, List.map_append, ofType, ofType]

theorem ofType_cons (t : Nat) (m : MsgBuf) (queue : List MsgBuf) :
    ofType t (m :: queue) = if m.mtype = t then m.mdata :: ofType t queue else ofType t queue := by
  by_cases h : m.mtype = t
  · rw [ofType, List.filter_cons_of_pos (by simpa using h), if_pos h, List.map_cons, ofType]
  · rw [ofType, List.filter_cons_of_neg (by simpa using h), if_neg h, ofType]

theorem ofType_concat (t : Nat) (queue : List MsgBuf) (m : MsgBuf) :
    ofType t (queue ++ [m]) = ofType t queue ++ if m.mtype = t then [m.mdata] else [] := by
  rw [ofType_append, ofType_cons]
  rfl

theorem ofType_concat_of_ne (h : m.mtype ≠ t) : ofType t (queue ++ [m]) = ofType t queue := by
  rw [ofType_concat, if_neg h, List.append_nil]

theorem ofType_eq_nil : ofType t queue = [] ↔ ∀ m ∈ queue, m.mtype ≠ t := by
  rw [ofType, List.map_eq_nil_iff, List.filter_eq_nil_iff]
  simp only [decide_eq_true_eq]

theorem mem_ofType {data : Str} : data ∈ ofType t queue ↔ ⟨t, data⟩ ∈ queue := by
  rw [ofType, List.mem_map]
  constructor
  · rintro ⟨m, hm, rfl⟩
    obtain ⟨hmem, ht⟩ := List.mem_filter.1 hm
    rwa [← of_decide_eq_true ht]
  · intro h
    exact ⟨_, List.mem_filter.2 ⟨h, decide_eq_true rfl⟩, rfl⟩

theorem mdata_mem_ofType (h : m ∈ queue) : m.mdata ∈ ofType m.mtype queue := mem_ofType.2 h

/-- The message that is received is the first of its type, and the others stay. -/
theorem msgrcv_ofType (ht : t ≠ 0) (h : msgrcv t queue = some (m, queue')) :
    m.mtype = t ∧ ofType t queue = m.mdata :: ofType t queue' ∧
      ∀ u, u ≠ t → ofType u queue = ofType u queue' := by
  induction queue generalizing queue' with
  | nil => cases h
  | cons x queue ih =>
    rw [msgrcv] at h
    by_cases hx : x.mtype = t
    · rw [if_pos (Or.inr hx)] at h
      cases h
      exact ⟨hx, by rw [ofType_cons, if_pos hx], fun u hu => by
        rw [ofType_cons, if_neg fun he => hu (he.symm.trans hx)]⟩
    · rw [if_neg (by simp [ht, hx])] at h
      obtain ⟨⟨m', rest⟩, hrest, he⟩ := Option.map_eq_some_iff.1 h
      cases he
      obtain ⟨hm, hsame, hother⟩ := ih hrest
      refine ⟨hm, by rw [ofType_cons, if_neg hx, hsame, ofType_cons, if_neg hx], ?_⟩
      intro u hu
      rw [ofType_cons, ofType_cons, hother u hu]

theorem msgrcv_length (h : msgrcv t queue = some (m, queue')) :
    queue'.length + 1 = queue.length := by
  induction queue generalizing queue' with
  | nil => cases h
  | cons x queue ih =>
    rw [msgrcv] at h
    split at h
    · cases h
      rfl
    · obtain ⟨⟨m', rest⟩, hrest, he⟩ := Option.map_eq_some_iff.1 h
      cases he
      rw [List.length_cons, List.length_cons, ih hrest]

theorem exists_msgrcv (h : ∃ m ∈ queue, m.mtype = t) :
    ∃ m queue', msgrcv t queue = some (m, queue') := by
  induction queue with
  | nil => simp at h
  | cons x queue ih =>
    rw [msgrcv]
    by_cases hx : t = 0 ∨ x.mtype = t
    · exact ⟨x, queue, if_pos hx⟩
    · obtain ⟨y, hy, hyt⟩ := h
      rcases List.mem_cons.1 hy with rfl | hy
      · exact absurd (Or.inr hyt) hx
      · obtain ⟨m, queue', hrcv⟩ := ih ⟨y, hy, hyt⟩
        exact ⟨m, x :: queue', by rw [if_neg hx, hrcv]; rfl⟩

theorem msgrcv_zero (h : msgrcv 0 queue = some (m, queue')) : queue = m :: queue' := by
  cases queue with
  | nil => cases h
  | cons x queue =>
    rw [msgrcv, if_pos (Or.inl rfl)] at h
    cases h
    rfl

theorem snd_eq_some (h : snd qbytes queue m = some (ok, queue')) :
    ok = true ∧ queue' = queue ++ [m] ∧ m.mtype ≠ 0 ∨
      ok = false ∧ queue' = queue ∧ (m.mtype = 0 ∨ ipcMaxMsgSz < m.mdata.length) := by
  rw [snd] at h
  split at h
  · rename_i hbad
    cases h
    exact Or.inr ⟨rfl, rfl, hbad⟩
  · rename_i hgood
    split at h
    · cases h
      exact Or.inl ⟨rfl, rfl, fun h0 => hgood (Or.inl h0)⟩
    · cases h

end Queue

section Moves

variable {ι : Type} [DecidableEq ι] {qbytes : Nat} {b b' : Broker ι}

/-- What a step changes. -/
inductive Broker.Moves (b : Broker ι) : BrokerAct ι → Broker ι → Prop
  | xmit (c : ι) (data : Str) (hout : (b.clients c).xmit = .out) :
      Moves b (.xmit c data) (b.setClient c (startXmit (b.clients c) data))
  | register (c : ι) (data : Str) (hx : (b.clients c).xmit = .unregistered data) :
      Moves b (.register c) { b.setClient c { b.clients c with xmit := .registering data } with
        req := b.req ++ [⟨1, "R".toList⟩] }
  | address (c : ι) (data : Str) (m : MsgBuf) (rep : List MsgBuf)
      (hx : (b.clients c).xmit = .registering data) (hrcv : msgrcv 2 b.rep = some (m, rep)) :
      Moves b (.address c) { b.setClient c
        { b.clients c with myAddress := ofIntBytes m.mdata, xmit := .ready data } with
        rep := rep }
  | request (c : ι) (data : Str) (hx : (b.clients c).xmit = .ready data) :
      Moves b (.request c) { b.setClient c
        { b.clients c with xmit := .out, sent := (b.clients c).sent ++ [data] } with
        req := b.req ++ [⟨(b.clients c).myAddress, data⟩] }
  | refused (c : ι) (data : Str) (hx : (b.clients c).xmit = .ready data)
      (hbad : (b.clients c).myAddress = 0 ∨ ipcMaxMsgSz < data.length) :
      Moves b (.request c) (b.setClient c { b.clients c with xmit := .out })
  | recv (c : ι) (m : MsgBuf) (rep : List MsgBuf) (hout : (b.clients c).xmit = .out)
      (hne : (b.clients c).myAddress ≠ 0)
      (hrcv : msgrcv (b.clients c).myAddress b.rep = some (m, rep)) :
      Moves b (.recv c) { b.setClient c
        { b.clients c with got := (b.clients c).got ++ [m.mdata] } with
        rep := rep }
  | takeRegistration (data : Str) (req : List MsgBuf) (hphase : b.phase = .receiving)
      (hreq : b.req = ⟨1, data⟩ :: req) :
      Moves b .take { b with req := req, phase := .registering }
  | takeRequest (m : MsgBuf) (req : List MsgBuf) (hphase : b.phase = .receiving)
      (hreq : b.req = m :: req) (hm : m.mtype ≠ 1) :
      Moves b .take { b with req := req, phase := .serving m.mtype m.mdata }
  | assign (hphase : b.phase = .registering) :
      Moves b .assign { b with
        rep := b.rep ++ [⟨2, intBytes b.nextClient⟩]
        phase := .receiving
        nextClient := bumpClient b.nextClient }
  | answer (t : Nat) (data ans : Str) (hphase : b.phase = .serving t data) :
      Moves b (.answer (some ans)) { b with phase := .answering t data ans }
  | unanswered (t : Nat) (data : Str) (hphase : b.phase = .serving t data) :
      Moves b (.answer none) { b with phase := .exited t data }
  | reply (t : Nat) (data ans : Str) (hphase : b.phase = .answering t data ans) :
      Moves b .reply { b with
        rep := b.rep ++ [⟨t, ans⟩], phase := .receiving, log := b.log ++ [⟨t, data, ans⟩] }
  | unsent (t : Nat) (data ans : Str) (hphase : b.phase = .answering t data ans)
      (hbad : t = 0 ∨ ipcMaxMsgSz < ans.length) :
      Moves b .reply { b with phase := .exited t data }

theorem Broker.moves_of_step {a : BrokerAct ι} (h : b.step qbytes a = some b') :
    b.Moves a b' := by
  cases a with
  | xmit c data =>
    rw [Broker.step] at h
    split at h
    · cases h
      exact .xmit c data ‹_›
    · cases h
  | register c =>
    rw [Broker.step] at h
    split at h
    · obtain ⟨⟨ok, req⟩, hsnd, hb⟩ := Option.bind_eq_some_iff.1 h
      cases hb
      rcases snd_eq_some hsnd with ⟨-, rfl, -⟩ | ⟨-, -, hbad⟩
      · exact .register c _ ‹_›
      · exact absurd hbad (by decide)
    · cases h
  | address c =>
    rw [Broker.step] at h
    split at h
    · obtain ⟨⟨m, rep⟩, hrcv, hb⟩ := Option.bind_eq_some_iff.1 h
      cases hb
      exact .address c _ m rep ‹_› hrcv
    · cases h
  | request c =>
    rw [Broker.step] at h
    split at h
    · obtain ⟨⟨ok, req⟩, hsnd, hb⟩ := Option.bind_eq_some_iff.1 h
      cases hb
      rcases snd_eq_some hsnd with ⟨rfl, rfl, -⟩ | ⟨rfl, rfl, hbad⟩
      · exact .request c _ ‹_›
      · exact .refused c _ ‹_› hbad
    · cases h
  | recv c =>
    rw [Broker.step] at h
    split at h
    · rename_i hcond
      obtain ⟨⟨m, rep⟩, hrcv, hb⟩ := Option.bind_eq_some_iff.1 h
      cases hb
      exact .recv c m rep hcond.1 hcond.2 hrcv
    · cases h
  | take =>
    rw [Broker.step] at h
    split at h
    · obtain ⟨⟨m, req⟩, hrcv, hb⟩ := Option.bind_eq_some_iff.1 h
      cases hb
      have hreq := msgrcv_zero hrcv
      by_cases hm : m.mtype = 1
      · rw [if_pos hm]
        exact .takeRegistration m.mdata req ‹_› (hm ▸ hreq)
      · rw [if_neg hm]
        exact .takeRequest m req ‹_› hreq hm
    · cases h
  | assign =>
    rw [Broker.step] at h
    split at h
    · obtain ⟨⟨ok, rep⟩, hsnd, hb⟩ := Option.bind_eq_some_iff.1 h
      cases hb
      rcases snd_eq_some hsnd with ⟨-, rfl, -⟩ | ⟨-, -, hbad⟩
      · exact .assign ‹_›
      · exact absurd (show 2 = 0 ∨ ipcMaxMsgSz < 4 from hbad) (by decide)
    · cases h
  | answer ans =>
    rw [Broker.step] at h
    split at h
    · cases ans with
      | none =>
        cases h
        exact .unanswered _ _ ‹_›
      | some ans =>
        cases h
        exact .answer _ _ ans ‹_›
    · cases h
  | reply =>
    rw [Broker.step] at h
    split at h
    · obtain ⟨⟨ok, rep⟩, hsnd, hb⟩ := Option.bind_eq_some_iff.1 h
      rcases snd_eq_some hsnd with ⟨rfl, rfl, -⟩ | ⟨rfl, rfl, hbad⟩
      · cases hb
        exact .reply _ _ _ ‹_›
      · cases hb
        exact .unsent _ _ _ ‹_› hbad
    · cases h

end Moves

section Enabled

variable {ι : Type} [DecidableEq ι] {qbytes : Nat} {b : Broker ι} {c : ι} {data : Str} {ok : Bool}
  {queue : List MsgBuf} {m : MsgBuf} {t : Nat}

theorem Broker.step_xmit (h : (b.clients c).xmit = .out) :
    b.step qbytes (.xmit c data) = some (b.setClient c (startXmit (b.clients c) data)) := by
  rw [Broker.step, if_pos h]

theorem Broker.step_register (hx : (b.clients c).xmit = .unregistered data)
    (hsnd : snd qbytes b.req ⟨1, "R".toList⟩ = some (ok, queue)) :
    b.step qbytes (.register c) =
      some { b.setClient c { b.clients c with xmit := .registering data } with req := queue } := by
  rw [Broker.step, hx]
  exact Option.bind_eq_some_iff.2 ⟨_, hsnd, rfl⟩

theorem Broker.step_address (hx : (b.clients c).xmit = .registering data)
    (hrcv : msgrcv 2 b.rep = some (m, queue)) :
    b.step qbytes (.address c) = some { b.setClient c
      { b.clients c with myAddress := ofIntBytes m.mdata, xmit := .ready data } with
      rep := queue } := by
  rw [Broker.step, hx]
  exact Option.bind_eq_some_iff.2 ⟨_, hrcv, rfl⟩

theorem Broker.step_request (hx : (b.clients c).xmit = .ready data)
    (hsnd : snd qbytes b.req ⟨(b.clients c).myAddress, data⟩ = some (true, queue)) :
    b.step qbytes (.request c) = some { b.setClient c
      { b.clients c with xmit := .out, sent := (b.clients c).sent ++ [data] } with
      req := queue } := by
  rw [Broker.step, hx]
  exact Option.bind_eq_some_iff.2 ⟨_, hsnd, rfl⟩

theorem Broker.step_recv (hx : (b.clients c).xmit = .out) (hne : (b.clients c).myAddress ≠ 0)
    (hrcv : msgrcv (b.clients c).myAddress b.rep = some (m, queue)) :
    b.step qbytes (.recv c) = some { b.setClient c
      { b.clients c with got := (b.clients c).got ++ [m.mdata] } with rep := queue } := by
  rw [Broker.step, if_pos ⟨hx, hne⟩]
  exact Option.bind_eq_some_iff.2 ⟨_, hrcv, rfl⟩

theorem Broker.step_take (hphase : b.phase = .receiving)
    (hrcv : msgrcv 0 b.req = some (m, queue)) :
    b.step qbytes .take = some { b with
      req := queue
      phase := if m.mtype = 1 then .registering else .serving m.mtype m.mdata } := by
  rw [Broker.step, hphase]
  exact Option.bind_eq_some_iff.2 ⟨_, hrcv, rfl⟩

theorem Broker.step_assign (hphase : b.phase = .registering)
    (hsnd : snd qbytes b.rep ⟨2, intBytes b.nextClient⟩ = some (ok, queue)) :
    b.step qbytes .assign = some { b with
      rep := queue, phase := .receiving, nextClient := bumpClient b.nextClient } := by
  rw [Broker.step, hphase]
  exact Option.bind_eq_some_iff.2 ⟨_, hsnd, rfl⟩

theorem Broker.step_answer {ans : Str} (hphase : b.phase = .serving t data) :
    b.step qbytes (.answer (some ans)) = some { b with phase := .answering t data ans } := by
  rw [Broker.step, hphase]
  rfl

theorem Broker.step_reply {ans : Str} (hphase : b.phase = .answering t data ans)
    (hsnd : snd qbytes b.rep ⟨t, ans⟩ = some (true, queue)) :
    b.step qbytes .reply = some { b with
      rep := queue, phase := .receiving, log := b.log ++ [⟨t, data, ans⟩] } := by
  rw [Broker.step, hphase]
  exact Option.bind_eq_some_iff.2 ⟨_, hsnd, rfl⟩

end Enabled

end MatrixZht
