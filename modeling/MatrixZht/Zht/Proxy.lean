import MatrixZht.Lib.Run
import MatrixZht.Zht.Connections
import MatrixZht.Zht.Replies
import MatrixZht.Zht.Routing

namespace MatrixZht
open Lib

/-- `HashUtil::genBase` -/
def genBase (host : Str) (port : Int) : Str := host ++ ':' :: numToStr port

/-- What a message has its connection cached under. -/
def connKey (neighborVector : List ConfEntry) (sendbuf : Str) : Option Str :=
  (getHostEntityByKey neighborVector sendbuf).map fun he => genBase he.host he.port

/-- A connection: the blobs the client has written, those of replies it has not read yet, and the
requests the server has answered, with the answers. Each read at either end is taken to return one
whole blob. -/
structure Sock where
  up : List Blob := []
  down : List Blob := []
  answers : List (Str × Str) := []

/-- What the server has put together. -/
def Sock.requests (k : Sock) : List Str :=
  (receiveAll (fun _ => none) (k.up.map Blob.cut)).2.reduceOption

/-- The requests that a server replies to, at once or from the thread for callbacks. -/
def Replied (request : Str) : Prop :=
  Sccb.Answerable (strToZpack request) ∨ (strToZpack request).opcode.getD [] = opcStchgcb

instance (request : Str) : Decidable (Replied request) := inferInstanceAs (Decidable (_ ∨ _))

/-- Where a thread is in `TCPProxy::sendrecv`. A socket that could not be connected is `none`, and
`mutex` tells whether there was a mutex to lock. While `inserting` a thread holds `CC_MUTEX`. -/
inductive ProxyPhase where
  | out
  | routed (m : Msg) (hashKey : Str)
  | inserting (m : Msg) (hashKey : Str) (sock : Nat)
  | connected (m : Msg) (hashKey : Str) (sock : Option Nat)
  | guarding (m : Msg) (hashKey : Str) (sock : Option Nat) (mutex : Bool)
  | sending (m : Msg) (hashKey : Str) (sock : Nat) (mutex : Bool) (todo : List Blob)
  | receiving (m : Msg) (hashKey : Str) (sock : Nat) (mutex : Bool) (bdMap : BdMap)

/-- A call of `sendrecv` that has returned a reply. -/
structure ProxyCall (ι : Type) where
  thread : ι
  hashKey : Str
  sock : Nat
  msg : Msg
  reply : Str

/-- A proxy and the threads that share it. A mutex of `MUTEX_CACHE` has a thread that holds it, or
none. `ccMutex` is the thread that has made a new connection and holds `CC_MUTEX`. -/
structure SharedProxy (ι : Type) where
  ccMutex : Option ι := none
  connCache : Str → Option Nat := fun _ => none
  mutexCache : Str → Option (Option ι) := fun _ => none
  nextSock : Nat := 1
  socks : Nat → Sock := fun _ => {}
  threads : ι → ProxyPhase := fun _ => .out
  calls : List (ProxyCall ι) := []

/-- The steps of the threads. `answer` is a step of the server at the other end. -/
inductive ProxyAct (ι : Type) where
  | call (i : ι) (uuid : Nat) (sendbuf : Str)
  | getSockCached (i : ι) (reachable : Bool)
  | putSockMutex (i : ι)
  | getSockMutex (i : ι)
  | lock (i : ι)
  | send (i : ι)
  | recv (i : ι)
  | answer (sock : Nat) (reply : Msg)

namespace SharedProxy

variable {ι : Type} [DecidableEq ι]

def setThread (p : SharedProxy ι) (i : ι) (phase : ProxyPhase) : SharedProxy ι :=
  { p with threads := Function.update p.threads i phase }

def setSock (p : SharedProxy ι) (sock : Nat) (k : Sock) : SharedProxy ι :=
  { p with socks := Function.update p.socks sock k }

def setMutex (p : SharedProxy ι) (hashKey : Str) (owner : Option ι) : SharedProxy ι :=
  { p with mutexCache := Function.update p.mutexCache hashKey (some owner) }

/-- A new connection is cached. `CC_MUTEX` is held until it has a mutex, too. -/
def getSockCached (p : SharedProxy ι) (i : ι) (reachable : Bool) : Option (SharedProxy ι) :=
  match p.threads i with
  | .routed m hashKey =>
    if p.ccMutex = none then
      match p.connCache hashKey with
      | some sock => some (p.setThread i (.connected m hashKey (some sock)))
      | none =>
        if reachable then
          let sock := p.nextSock
          some
            ({ p with
              ccMutex := some i
              connCache := Function.update p.connCache hashKey (some sock)
              nextSock := sock + 1 }.setThread i (.inserting m hashKey sock))
        else some (p.setThread i (.connected m hashKey none))
    else none
  | _ => none

def putSockMutex (p : SharedProxy ι) (i : ι) : Option (SharedProxy ι) :=
  match p.threads i with
  | .inserting m hashKey sock =>
    let p := if (p.mutexCache hashKey).isSome then p else p.setMutex hashKey none
    some ({ p with ccMutex := none }.setThread i (.connected m hashKey (some sock)))
  | _ => none

/-- `MUTEX_CACHE` is read without a lock. What comes out while another thread may be inserting is
undefined. -/
def getSockMutex (p : SharedProxy ι) (i : ι) : Option (SharedProxy ι) :=
  match p.threads i with
  | .connected m hashKey sock =>
    if p.ccMutex = none then
      some (p.setThread i (.guarding m hashKey sock (p.mutexCache hashKey).isSome))
    else none
  | _ => none

/-- A thread without a socket fails as soon as it has the mutex, and lets it go again. -/
def lock (p : SharedProxy ι) (i : ι) : Option (SharedProxy ι) :=
  match p.threads i with
  | .guarding m hashKey sock mutex =>
    if mutex → p.mutexCache hashKey = some none then
      match sock with
      | none => some (p.setThread i .out)
      | some sock =>
        let p := if mutex then p.setMutex hashKey (some i) else p
        some (p.setThread i (.sending m hashKey sock mutex m.blobs))
    else none
  | _ => none

/-- One turn of the loop of `BdSendBase::bsend`, or its end. -/
def send (p : SharedProxy ι) (i : ι) : Option (SharedProxy ι) :=
  match p.threads i with
  | .sending m hashKey sock mutex (b :: todo) =>
    let k := p.socks sock
    some ((p.setSock sock { k with up := k.up ++ [b] }).setThread i
      (.sending m hashKey sock mutex todo))
  | .sending m hashKey sock mutex [] =>
    some (p.setThread i (.receiving m hashKey sock mutex fun _ => none))
  | _ => none

/-- One turn of the loop of `loopedrecv`. With a whole reply the call returns and the mutex is let
go. -/
def recv (p : SharedProxy ι) (i : ι) : Option (SharedProxy ι) :=
  match p.threads i with
  | .receiving m hashKey sock mutex bdMap =>
    let k := p.socks sock
    match k.down with
    | [] => none
    | b :: down =>
      (getBdStr bdMap b.toString).map fun (bdMap, ready) =>
        let p := p.setSock sock { k with down }
        match ready with
        | none => p.setThread i (.receiving m hashKey sock mutex bdMap)
        | some bd =>
          let p := if mutex then p.setMutex hashKey none else p
          { p.setThread i .out with calls := p.calls ++ [⟨i, hashKey, sock, m, bd⟩] }
  | _ => none

/-- The server replies to the next request that is whole, if it is one that is replied to. -/
def answer (p : SharedProxy ι) (sock : Nat) (reply : Msg) : Option (SharedProxy ι) :=
  let k := p.socks sock
  k.requests[k.answers.length]?.bind fun request =>
    if Replied request then
      some (p.setSock sock
        { k with
          down := k.down ++ reply.blobs
          answers := k.answers ++ [(request, reply.text)] })
    else none

def step (neighborVector : List ConfEntry) (p : SharedProxy ι) :
    ProxyAct ι → Option (SharedProxy ι)
  | .call i uuid sendbuf =>
    match p.threads i with
    | .out =>
      (connKey neighborVector sendbuf).map fun hashKey =>
        p.setThread i (.routed ⟨uuid, cstr sendbuf⟩ hashKey)
    | _ => none
  | .getSockCached i reachable => p.getSockCached i reachable
  | .putSockMutex i => p.putSockMutex i
  | .getSockMutex i => p.getSockMutex i
  | .lock i => p.lock i
  | .send i => p.send i
  | .recv i => p.recv i
  | .answer sock reply => p.answer sock reply

end SharedProxy

/-- A message that arrives as it was sent. -/
structure Msg.Whole (m : Msg) : Prop where
  sendable : m.Sendable
  text : m.text ≠ []
  plain : '\x00' ∉ m.text

/-- Requests fit into blobs, and servers answer with texts that do. -/
def ProxyAct.Ok {ι : Type} : ProxyAct ι → Prop
  | .call _ uuid sendbuf => (⟨uuid, cstr sendbuf⟩ : Msg).Sendable ∧ cstr sendbuf ≠ []
  | .answer _ reply => reply.Whole
  | _ => True

section Whole

variable {m : Msg} {msgs : List Msg} {written todo : List Blob}

theorem Msg.Whole.pieces_ne_nil (h : m.Whole) : m.pieces ≠ [] :=
  fun hnil => h.text ((pieces_eq_nil m).1 hnil)

theorem map_cut_flatMap (msgs : List Msg) :
    (msgs.flatMap Msg.blobs).map Blob.cut = msgs.flatMap Msg.pieces := by
  rw [List.map_flatMap]
  rfl

theorem requests_written (hmsgs : ∀ m ∈ msgs, m.Whole) (hm : m.Whole)
    (hwritten : m.blobs = written ++ todo) :
    (receiveAll (fun _ => none)
        ((msgs.flatMap Msg.blobs ++ written).map Blob.cut)).2.reduceOption =
      msgs.map Msg.text ++ if todo = [] then [m.text] else [] := by
  obtain ⟨hfst, hsnd⟩ := @receiveAll_msgs msgs (fun _ => none) fun _ _ _ => rfl
  rw [carriedAll_eq fun m hm => ⟨(hmsgs m hm).text, (hmsgs m hm).plain⟩] at hsnd
  rw [List.map_append, map_cut_flatMap, receiveAll_append, hfst]
  dsimp only
  rw [List.reduceOption_append, hsnd]
  congr 1
  have hpieces : m.pieces = written.map Blob.cut ++ todo.map Blob.cut := by
    rw [Msg.pieces, hwritten, List.map_append]
  by_cases htodo : todo = []
  · rw [htodo, List.map_nil, List.append_nil] at hpieces
    rw [if_pos htodo, ← hpieces, receiveAll_pieces hm.pieces_ne_nil rfl, carried_eq hm.plain]
    dsimp only
    rw [List.reduceOption_append, List.reduceOption_replicate_none]
    rfl
  · rw [if_neg htodo]
    by_cases hone : m.pieces.length = 1
    · have hnil : written = [] := by
        rw [hpieces, List.length_append, List.length_map, List.length_map] at hone
        have := List.length_pos_of_ne_nil htodo
        exact List.length_eq_zero_iff.1 (by omega)
      rw [hnil]
      rfl
    · refine (receiveAll_short (u := m.uuid) (fun b hb => ?_) hone ?_).1
      · have hmem : b ∈ m.pieces := hpieces ▸ List.mem_append_left _ hb
        exact ⟨Msg.uuid_of_mem hmem, Msg.total_of_mem hmem⟩
      · rw [hpieces]
        have := List.length_pos_of_ne_nil htodo
        simpa using this

theorem requests_all (hmsgs : ∀ m ∈ msgs, m.Whole) :
    (receiveAll (fun _ => none) ((msgs.flatMap Msg.blobs).map Blob.cut)).2.reduceOption =
      msgs.map Msg.text := by
  obtain ⟨_, hsnd⟩ := @receiveAll_msgs msgs (fun _ => none) fun _ _ _ => rfl
  rw [carriedAll_eq fun m hm => ⟨(hmsgs m hm).text, (hmsgs m hm).plain⟩] at hsnd
  rw [map_cut_flatMap, hsnd]

theorem getBdStr_next {r : Msg} {b : Blob} {read rest : List Blob} {bdMap : BdMap} (hr : r.Whole)
    (hblobs : r.blobs = read ++ b :: rest) (hslot : bdMap r.uuid = r.slot read) :
    getBdStr bdMap b.toString = some (Function.update bdMap r.uuid (r.slot (read ++ [b])),
      if rest = [] then some r.text else none) := by
  have hb : b ∈ r.blobs := by simp [hblobs]
  have hpieces : r.pieces = read ++ b :: rest := (pieces_eq hr.plain).trans hblobs
  rw [getBdStr, Blob.assign_toString (hr.sendable.headerOk hb), cut_eq hr.plain hb,
    Option.map_some, receive_next hpieces hslot, carried_eq hr.plain]

end Whole

section Exchange

variable {ι : Type}

def ProxyCall.pair (c : ProxyCall ι) : Str × Str := (c.msg.text, c.reply)

def SharedProxy.callsOn (p : SharedProxy ι) (sock : Nat) : List (ProxyCall ι) :=
  p.calls.filter fun c => c.sock = sock

/-- Between two calls: what has been written are the messages of the calls, and their replies have
been read. -/
structure Sock.Free (done : List (ProxyCall ι)) (k : Sock) : Prop where
  up : k.up = (done.map ProxyCall.msg).flatMap Msg.blobs
  down : k.down = []
  answers : k.answers = done.map ProxyCall.pair

/-- Until the reply to `m` comes; the blobs `todo` are still to be written. -/
structure Sock.Asked (done : List (ProxyCall ι)) (m : Msg) (todo : List Blob) (k : Sock) :
    Prop where
  up : ∃ written, m.blobs = written ++ todo ∧
    k.up = (done.map ProxyCall.msg).flatMap Msg.blobs ++ written
  down : k.down = []
  answers : k.answers = done.map ProxyCall.pair

/-- The blobs `k.down` of the reply to `m` are still to be read. -/
structure Sock.Answered (done : List (ProxyCall ι)) (m : Msg) (bdMap : BdMap) (k : Sock) :
    Prop where
  up : k.up = (done.map ProxyCall.msg).flatMap Msg.blobs ++ m.blobs
  down : k.down ≠ []
  reply : ∃ r : Msg, r.Whole ∧ k.answers = done.map ProxyCall.pair ++ [(m.text, r.text)] ∧
    ∃ read, r.blobs = read ++ k.down ∧ bdMap r.uuid = r.slot read

variable {done : List (ProxyCall ι)} {m : Msg} {todo : List Blob} {bdMap : BdMap} {k : Sock}

theorem Sock.Free.asked (h : k.Free done) : k.Asked done m m.blobs where
  up := ⟨[], rfl, by rw [h.up, List.append_nil]⟩
  down := h.down
  answers := h.answers

theorem Sock.Asked.write {b : Blob} (h : k.Asked done m (b :: todo)) :
    Sock.Asked done m todo { k with up := k.up ++ [b] } where
  up := by
    obtain ⟨written, hblobs, hup⟩ := h.up
    exact ⟨written ++ [b], by simpa using hblobs, by simp [hup]⟩
  down := h.down
  answers := h.answers

theorem Sock.Free.requests (h : k.Free done) (hdone : ∀ c ∈ done, c.msg.Whole) :
    k.requests[k.answers.length]? = none := by
  rw [Sock.requests, h.up, requests_all (List.forall_mem_map.2 hdone), h.answers]
  simp

theorem Sock.Asked.requests (h : k.Asked done m todo) (hdone : ∀ c ∈ done, c.msg.Whole)
    (hm : m.Whole) :
    k.requests[k.answers.length]? = if todo = [] then some m.text else none := by
  obtain ⟨written, hblobs, hup⟩ := h.up
  have hlen : (done.map ProxyCall.pair).length =
      ((done.map ProxyCall.msg).map Msg.text).length := by
    simp
  rw [Sock.requests, hup, requests_written (List.forall_mem_map.2 hdone) hm hblobs, h.answers, hlen,
    List.getElem?_append_right le_rfl, Nat.sub_self]
  split <;> rfl

theorem Sock.Answered.requests (h : k.Answered done m bdMap) (hdone : ∀ c ∈ done, c.msg.Whole)
    (hm : m.Whole) : k.requests[k.answers.length]? = none := by
  obtain ⟨r, _, hanswers, _⟩ := h.reply
  rw [Sock.requests, h.up,
    requests_written (List.forall_mem_map.2 hdone) hm (List.append_nil _).symm, if_pos rfl,
    hanswers]
  simp

theorem Sock.Asked.answer (h : k.Asked done m []) {r : Msg} (hr : r.Whole) :
    Sock.Answered done m (fun _ => none)
      { k with down := k.down ++ r.blobs, answers := k.answers ++ [(m.text, r.text)] } where
  up := by
    obtain ⟨written, hblobs, hup⟩ := h.up
    rw [List.append_nil] at hblobs
    rw [hup, hblobs]
  down := by
    rw [h.down, List.nil_append]
    intro hnil
    exact hr.pieces_ne_nil ((pieces_eq hr.plain).trans hnil)
  reply := by
    refine ⟨r, hr, by rw [h.answers], [], by rw [h.down]; rfl, ?_⟩
    exact (Msg.slot_of_none fun _ _ => List.not_mem_nil).symm

/-- A thread reads the next blob of its reply, and has the reply after the last. -/
theorem Sock.Answered.read (h : k.Answered done m bdMap) {b : Blob} {down : List Blob}
    (hdown : k.down = b :: down) :
    ∃ bdMap' r, getBdStr bdMap b.toString = some (bdMap', if down = [] then some r else none) ∧
      k.answers = done.map ProxyCall.pair ++ [(m.text, r)] ∧
      (down ≠ [] → Sock.Answered done m bdMap' { k with down }) := by
  obtain ⟨r, hr, hanswers, read, hblobs, hslot⟩ := h.reply
  rw [hdown] at hblobs
  refine ⟨_, r.text, getBdStr_next hr hblobs hslot, hanswers, fun hne => ⟨h.up, hne, ?_⟩⟩
  refine ⟨r, hr, hanswers, read ++ [b], by simpa using hblobs, ?_⟩
  exact Function.update_self ..

end Exchange

end MatrixZht
