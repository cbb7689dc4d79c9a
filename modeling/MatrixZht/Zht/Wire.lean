import MatrixZht.Zht.Connections
import MatrixZht.Zht.Refinement
import MatrixZht.Zht.Replies

namespace MatrixZht
open Lib

/-- A connection: the index of the server and the descriptor it has there. -/
abbrev Conn := Nat × Nat

/-- A server on the network, with the messages that have arrived in part. -/
structure WireServer where
  worker : HTWorker
  bdMap : BdMap

/-- What `EpollServer::serve` does with the bytes of one read, and `IPServer::process` with a
message that is ready. -/
def WireServer.read (c : Cluster) (s : WireServer) (fd : Nat) (buf : Str) :
    Option (WireServer × List Sent) := do
  let (bdMap, ready) ← getBdStr s.bdMap buf
  match ready with
  | none => some (⟨s.worker, bdMap⟩, [])
  | some bd =>
    let (worker, sent) :=
      Sccb.recvsend c.fnvHash c.resizeDue c.serialize fd s.worker (cstr bd)
    some (⟨worker, bdMap⟩, sent)

/-- The servers of a cluster, each reading from its connections. The replies come in the order in
which they are sent. -/
def Cluster.serveReads (c : Cluster) (net : Nat → WireServer) :
    List (Conn × Str) → Option ((Nat → WireServer) × List (Conn × Str))
  | [] => some (net, [])
  | ((i, fd), buf) :: reads => do
    let (s, sent) ← (net i).read c fd buf
    let (net, replies) ← c.serveReads (Function.update net i s) reads
    some (net, (sent.map fun r => ((i, r.fd), r.text)) ++ replies)

namespace ZhtOp

def key : ZhtOp → Str
  | insert key _ => key
  | lookup key => key
  | remove key => key
  | compareSwap key _ _ => key

/-- The text of a request. -/
def text : ZhtOp → Str
  | insert key val => zpackToStr (Cluster.requestPack opcInsert key val [] 1)
  | lookup key => zpackToStr (Cluster.requestPack opcLookup key [] [] 1)
  | remove key => zpackToStr (Cluster.requestPack opcRemove key [] [] 1)
  | compareSwap key seenVal newVal =>
    zpackToStr (Cluster.requestPack opcCmpswp key seenVal newVal 1)

/-- The status and the result that a client reads from a reply. -/
def readAnswer (op : ZhtOp) (srecv : Str) : Int × Str :=
  let r := readReply srecv
  match op with
  | insert _ _ => (r.1, [])
  | remove _ => (r.1, [])
  | lookup _ => (r.1, Cluster.extractValue r.2)
  | compareSwap _ _ _ => (r.1, Cluster.extractValue r.2)

end ZhtOp

/-- A request and the id its message is sent under. -/
structure WireRequest where
  uuid : Nat
  op : ZhtOp
deriving DecidableEq

def WireRequest.msg (r : WireRequest) : Msg := ⟨r.uuid, r.op.text⟩

/-- A request of a client to the server of its key. -/
structure WireRequest.Valid (c : Cluster) (i : Nat) (r : WireRequest) : Prop where
  plain : r.op.Plain
  hasNewVal : r.op.HasNewVal
  route : c.route r.op.key = i
  sendable : r.msg.Sendable

section Request

variable {c : Cluster} {servers : Servers} {s : Store} {op : ZhtOp}

theorem ZhtOp.Plain.nul_not_mem (h : op.Plain) : '\x00' ∉ op.text := by
  cases op with
  | insert key val => exact nul_not_mem_requestPack (by decide) h.1 (.inr h.2.1) (.inl rfl) 1
  | lookup key => exact nul_not_mem_requestPack (by decide) h (.inl rfl) (.inl rfl) 1
  | remove key => exact nul_not_mem_requestPack (by decide) h (.inl rfl) (.inl rfl) 1
  | compareSwap key seenVal newVal =>
    exact nul_not_mem_requestPack (by decide) h.1 (.inr h.2.1.1) (.inr h.2.2.1) 1

theorem zpackToStr_ne_nil (z : ZPack) : zpackToStr z ≠ [] := by
  simp [zpackToStr, zpackFields]

theorem ZhtOp.text_ne_nil (op : ZhtOp) : op.text ≠ [] := by
  cases op <;> exact zpackToStr_ne_nil _

theorem Cluster.step_eq (hp : op.Plain) (hn : op.HasNewVal) :
    c.step servers op =
      let r := (servers (c.route op.key)).run c.fnvHash c.resizeDue c.serialize op.text
      (Function.update servers (c.route op.key) r.1,
        r.2.map fun reply => op.readAnswer (cstr reply)) := by
  cases op with
  | insert key val =>
    have hr := received (by decide : opcInsert ∈ opcodes) hp.1 hp.2.sendable (.inl rfl)
    have heq := @commonOp_eq c servers _ key val [] _ (by decide) hp.1 hr
    simp only [Cluster.step, Cluster.insert, heq, Option.map_map]
    rfl
  | lookup key =>
    have hr := received (by decide : opcLookup ∈ opcodes) hp (.inl rfl) (.inl rfl)
    have heq := @commonOp_eq c servers _ key [] [] _ (by decide) hp hr
    simp only [Cluster.step, Cluster.lookup, heq, Option.map_map]
    rfl
  | remove key =>
    have hr := received (by decide : opcRemove ∈ opcodes) hp (.inl rfl) (.inl rfl)
    have heq := @commonOp_eq c servers _ key [] [] _ (by decide) hp hr
    simp only [Cluster.step, Cluster.remove, heq, Option.map_map]
    rfl
  | compareSwap key seenVal newVal =>
    have hr := received (by decide : opcCmpswp ∈ opcodes) hp.1 hp.2.1.sendable
      (.inr ⟨hp.2.2.1, hn⟩)
    have heq := @commonOp_eq c servers _ key seenVal newVal _ (by decide) hp.1 hr
    simp only [Cluster.step, Cluster.compareSwap, heq, Option.map_map]
    rfl

end Request

/-- What becomes ready at the servers when these blobs arrive. -/
def collect (maps : Nat → BdMap) : List (Conn × Blob) → (Nat → BdMap) × List (Conn × Str)
  | [] => (maps, [])
  | ((i, fd), b) :: arrivals =>
    let r := receive (maps i) b
    let rs := collect (Function.update maps i r.1) arrivals
    (rs.1, (r.2.map fun bd => ((i, fd), bd)).toList ++ rs.2)

/-- What arrives at one server. -/
def atServer {α : Type} (i : Nat) (l : List (Conn × α)) : List (Nat × α) :=
  (l.filter fun p => p.1.1 = i).map fun p => (p.1.2, p.2)

/-- The servers work off requests that are ready. -/
def Cluster.answerAll (c : Cluster) (servers : Servers) :
    List (Conn × Str) → Servers × List (Conn × Str)
  | [] => (servers, [])
  | ((i, fd), text) :: events =>
    let r := Sccb.recvsend c.fnvHash c.resizeDue c.serialize fd (servers i) (cstr text)
    let rs := c.answerAll (Function.update servers i r.1) events
    (rs.1, (r.2.map fun r => ((i, r.fd), r.text)) ++ rs.2)

section Collect

variable {c : Cluster} {maps : Nat → BdMap} {servers : Servers} {i fd : Nat}
  {arrivals arrivals' : List (Conn × Blob)}

theorem atServer_cons {α : Type} (i : Nat) (p : Conn × α) (l : List (Conn × α)) :
    atServer i (p :: l) =
      if p.1.1 = i then (p.1.2, p.2) :: atServer i l else atServer i l := by
  rw [atServer]
  split
  · next h => rw [List.filter_cons_of_pos (by simpa using h), List.map_cons, atServer]
  · next h => rw [List.filter_cons_of_neg (by simpa using h), atServer]

theorem atServer_append {α : Type} (i : Nat) (l l' : List (Conn × α)) :
    atServer i (l ++ l') = atServer i l ++ atServer i l' := by
  rw [atServer, List.filter_append, List.map_append, atServer, atServer]

theorem only_atServer {α : Type} (i fd : Nat) (l : List (Conn × α)) :
    only fd (atServer i l) = only (i, fd) l := by
  induction l with
  | nil => rfl
  | cons p l ih =>
    obtain ⟨⟨j, fd'⟩, x⟩ := p
    rw [atServer_cons, only_cons]
    by_cases hj : j = i
    · rw [if_pos hj, only_cons, ih, hj]
      simp only [Prod.mk.injEq, true_and]
    · rw [if_neg hj, ih]
      simp only [Prod.mk.injEq, hj, false_and, if_false]

theorem collect_append (maps : Nat → BdMap) (as as' : List (Conn × Blob)) :
    collect maps (as ++ as') =
      ((collect (collect maps as).1 as').1,
        (collect maps as).2 ++ (collect (collect maps as).1 as').2) := by
  induction as generalizing maps with
  | nil => rfl
  | cons a as ih => simp only [List.cons_append, collect, ih, List.append_assoc]

theorem atServer_collect (maps : Nat → BdMap) (arrivals : List (Conn × Blob)) (i : Nat) :
    atServer i (collect maps arrivals).2 = (serveAll (maps i) (atServer i arrivals)).2 := by
  induction arrivals generalizing maps with
  | nil => rfl
  | cons a arrivals ih =>
    obtain ⟨⟨j, fd⟩, b⟩ := a
    rw [collect, atServer_append, ih, atServer_cons]
    dsimp only
    by_cases hj : j = i
    · subst hj
      rw [if_pos rfl, Function.update_self, serveAll]
      dsimp only
      cases (receive (maps j) b).2 with
      | none => rfl
      | some bd => rw [Option.map_some, Option.toList_some, atServer_cons, if_pos rfl]; rfl
    · rw [if_neg hj, Function.update_of_ne fun he => hj he.symm]
      cases (receive (maps j) b).2 with
      | none => rfl
      | some bd => rw [Option.map_some, Option.toList_some, atServer_cons, if_neg hj]; rfl

theorem update_wireServer (servers : Servers) (maps : Nat → BdMap) (i : Nat) (w : HTWorker)
    (bdMap : BdMap) :
    Function.update (fun j => (⟨servers j, maps j⟩ : WireServer)) i ⟨w, bdMap⟩ =
      fun j => ⟨Function.update servers i w j, Function.update maps i bdMap j⟩ := by
  funext j
  by_cases hj : j = i
  · rw [hj, Function.update_self, Function.update_self, Function.update_self]
  · rw [Function.update_of_ne hj, Function.update_of_ne hj, Function.update_of_ne hj]

/-- Reading and answering take turns, but the answers depend only on what is ready. -/
theorem serveReads_toString (servers : Servers) (maps : Nat → BdMap)
    (h : ∀ a ∈ arrivals, a.2.HeaderOk) :
    c.serveReads (fun i => ⟨servers i, maps i⟩) (arrivals.map fun a => (a.1, a.2.toString)) =
      let rs := collect maps (arrivals.map fun a => (a.1, a.2.cut))
      let as := c.answerAll servers rs.2
      some (fun i => ⟨as.1 i, rs.1 i⟩, as.2) := by
  induction arrivals generalizing servers maps with
  | nil => rfl
  | cons a arrivals ih =>
    obtain ⟨ha, harrivals⟩ := List.forall_mem_cons.1 h
    obtain ⟨⟨i, fd⟩, b⟩ := a
    have hget : getBdStr (maps i) b.toString = some (receive (maps i) b.cut) := by
      rw [getBdStr, Blob.assign_toString ha]
      rfl
    rw [List.map_cons, Cluster.serveReads, WireServer.read, hget, List.map_cons, collect]
    dsimp only [Option.bind_eq_bind, Option.bind_some]
    generalize receive (maps i) b.cut = r
    obtain ⟨bdMap, ready⟩ := r
    cases ready with
    | none =>
      rw [Option.bind_some]
      dsimp only
      rw [update_wireServer, Function.update_eq_self, ih _ _ harrivals]
      rfl
    | some bd =>
      rw [Option.bind_some]
      dsimp only
      rw [update_wireServer, ih _ _ harrivals]
      rfl

theorem atServer_map {α β : Type} (i : Nat) (f : α → β) (l : List (Conn × α)) :
    atServer i (l.map fun p => (p.1, f p.2)) = (atServer i l).map fun p => (p.1, f p.2) := by
  induction l with
  | nil => rfl
  | cons p l ih =>
    rw [List.map_cons, atServer_cons, atServer_cons, ih]
    split <;> rfl

end Collect

/-- The replies to these requests, one for each and in their order, are read as the answers of a
map. -/
def Answers (s : Store) (order : List (Conn × ZhtOp)) (replies : List (Conn × Str)) : Prop :=
  replies.map Prod.fst = order.map Prod.fst ∧
    List.zipWith (fun p r => p.2.readAnswer r.2) order replies = (s.run (order.map Prod.snd)).2

/-- A request at the server of its key. -/
def Routed (c : Cluster) (p : Conn × ZhtOp) : Prop :=
  p.2.Plain ∧ p.2.HasNewVal ∧ c.route p.2.key = p.1.1

section Answer

variable {c : Cluster} {servers : Servers} {s : Store} {order : List (Conn × ZhtOp)}

theorem recvsend_refines (h : Refines c servers s) {i fd : Nat} {op : ZhtOp}
    (hop : Routed c ((i, fd), op)) :
    ∃ w reply, Sccb.recvsend c.fnvHash c.resizeDue c.serialize fd (servers i) (cstr op.text) =
        (w, [⟨fd, reply⟩]) ∧ op.readAnswer reply = (s.step op).2 ∧
      Refines c (Function.update servers i w) (s.step op).1 := by
  obtain ⟨hp, hn, hroute⟩ := hop
  dsimp only at hp hn hroute
  subst hroute
  obtain ⟨hanswer, hnext⟩ := step_refines_store h hp hn
  rw [Cluster.step_eq hp hn] at hanswer hnext
  obtain ⟨reply, hreply, hread⟩ := Option.map_eq_some_iff.1 hanswer
  refine ⟨_, cstr reply, ?_, hread, hnext⟩
  obtain ⟨hworker, hsent⟩ := Sccb.run_eq c.fnvHash c.resizeDue c.serialize fd
    (servers (c.route op.key)) op.text
  have hcut : cstr op.text = op.text := cstr_eq hp.nul_not_mem
  rw [Sccb.recvsend, hcut, hcut, hcut, hworker, hsent, hreply]
  rfl

/-- The requests that are ready are answered as a map answers them. -/
theorem answerAll_refines (h : Refines c servers s) (horder : ∀ p ∈ order, Routed c p) :
    Answers s order (c.answerAll servers (order.map fun p => (p.1, p.2.text))).2 ∧
      Refines c (c.answerAll servers (order.map fun p => (p.1, p.2.text))).1
        (s.run (order.map Prod.snd)).1 := by
  induction order generalizing servers s with
  | nil => exact ⟨⟨rfl, rfl⟩, h⟩
  | cons p order ih =>
    obtain ⟨hp, hrest⟩ := List.forall_mem_cons.1 horder
    obtain ⟨⟨i, fd⟩, op⟩ := p
    obtain ⟨w, reply, hsend, hread, hnext⟩ := recvsend_refines h hp
    obtain ⟨⟨hconns, hanswers⟩, hlast⟩ := ih hnext hrest
    rw [List.map_cons, Cluster.answerAll]
    dsimp only
    rw [hsend]
    refine ⟨⟨?_, ?_⟩, hlast⟩
    · exact congrArg (List.cons (i, fd)) hconns
    · exact congrArg₂ List.cons hread hanswers

end Answer

/-- The servers before the first request. -/
def freshNet : Nat → WireServer := fun i => ⟨freshServers i, fun _ => none⟩

section Wire

variable {c : Cluster} {sent : Conn → List WireRequest} {arrivals : List (Conn × Blob)}

theorem only_collect (hvalid : ∀ conn, ∀ r ∈ sent conn, r.Valid c conn.1)
    (hids : ∀ i fd fd', fd ≠ fd' → ∀ r ∈ sent (i, fd), ∀ r' ∈ sent (i, fd'),
      blobSize < r.msg.text.length → blobSize < r'.msg.text.length → r.uuid ≠ r'.uuid)
    (h : ∀ conn, only conn arrivals = (sent conn).flatMap fun r => r.msg.blobs) (conn : Conn) :
    only conn (collect (fun _ _ => none) (arrivals.map fun a => (a.1, a.2.cut))).2 =
      (sent conn).map fun r => r.op.text := by
  obtain ⟨i, fd⟩ := conn
  let msgs (fd : Nat) : List Msg := (sent (i, fd)).map WireRequest.msg
  have harrivals : Interleaving msgs (atServer i arrivals) := by
    intro fd
    rw [only_atServer, h, List.flatMap_map]
  have hsendable : ∀ fd, ∀ m ∈ msgs fd, m.Sendable := by
    intro fd m hm
    obtain ⟨r, hr, rfl⟩ := List.mem_map.1 hm
    exact (hvalid (i, fd) r hr).sendable
  have htext : ∀ fd, ∀ m ∈ msgs fd, m.text ≠ [] ∧ '\x00' ∉ m.text := by
    intro fd m hm
    obtain ⟨r, hr, rfl⟩ := List.mem_map.1 hm
    exact ⟨r.op.text_ne_nil, (hvalid (i, fd) r hr).plain.nul_not_mem⟩
  have hdistinct : ∀ fd fd', fd ≠ fd' → ∀ m ∈ msgs fd, ∀ m' ∈ msgs fd',
      blobSize < m.text.length → blobSize < m'.text.length → m.uuid ≠ m'.uuid := by
    intro fd fd' hne m hm m' hm'
    obtain ⟨r, hr, rfl⟩ := List.mem_map.1 hm
    obtain ⟨r', hr', rfl⟩ := List.mem_map.1 hm'
    exact hids i fd fd' hne r hr r' hr'
  have hevents :=
    (separate_of_distinct hsendable htext hdistinct).events hsendable harrivals fd
  rw [← only_atServer, atServer_collect, atServer_map, hevents, List.map_map]
  rfl

theorem headerOk_of_valid (hvalid : ∀ conn, ∀ r ∈ sent conn, r.Valid c conn.1)
    (h : ∀ conn, only conn arrivals = (sent conn).flatMap fun r => r.msg.blobs) :
    ∀ a ∈ arrivals, a.2.HeaderOk := by
  rintro ⟨conn, b⟩ ha
  have hb := mem_only.2 ha
  rw [h conn] at hb
  obtain ⟨r, hr, hbr⟩ := List.mem_flatMap.1 hb
  exact (hvalid conn r hr).sendable.headerOk hbr

end Wire

/-- The clients of the cluster see a map. However the blobs of their requests are interleaved on
their way, there is one order of all requests, with the requests of a connection in the order they
were sent, such that at every moment the requests answered are the first of that order, answered as
a map answers them, and the tables are an image of that map. -/
theorem wire_refines_store (c : Cluster) {sent : Conn → List WireRequest}
    (hvalid : ∀ conn, ∀ r ∈ sent conn, r.Valid c conn.1)
    (hids : ∀ i fd fd', fd ≠ fd' → ∀ r ∈ sent (i, fd), ∀ r' ∈ sent (i, fd'),
      blobSize < r.msg.text.length → blobSize < r'.msg.text.length → r.uuid ≠ r'.uuid)
    {arrivals : List (Conn × Blob)}
    (h : ∀ conn, only conn arrivals = (sent conn).flatMap fun r => r.msg.blobs) :
    ∃ order : List (Conn × ZhtOp), (∀ conn, only conn order = (sent conn).map WireRequest.op) ∧
      ∀ as, as <+: arrivals → ∃ done, done <+: order ∧ (as = arrivals → done = order) ∧
        ∃ net replies,
          c.serveReads freshNet (as.map fun a => (a.1, a.2.toString)) = some (net, replies) ∧
            Answers (fun _ => none) done replies ∧
            Refines c (fun i => (net i).worker)
              (Store.run (fun _ => none) (done.map Prod.snd)).1 := by
  have hready : ∀ conn, only conn (collect (fun _ _ => none)
      (arrivals.map fun a => (a.1, a.2.cut))).2 =
        ((sent conn).map WireRequest.op).map ZhtOp.text := by
    intro conn
    rw [only_collect hvalid hids h, List.map_map]
    rfl
  obtain ⟨order, hevents, honly⟩ := exists_merge_of_map hready
  refine ⟨order, honly, ?_⟩
  rintro as ⟨bs, rfl⟩
  have hrouted : ∀ p ∈ order, Routed c p := by
    rintro ⟨conn, op⟩ hp
    have hmem := mem_only.2 hp
    rw [honly] at hmem
    obtain ⟨r, hr, rfl⟩ := List.mem_map.1 hmem
    have hv := hvalid conn r hr
    exact ⟨hv.plain, hv.hasNewVal, hv.route⟩
  rw [List.map_append, collect_append] at hevents
  obtain ⟨done, rest, rfl, hdone, hrest⟩ := List.map_eq_append_iff.1 hevents
  have hheaders : ∀ a ∈ as, a.2.HeaderOk := fun a ha =>
    headerOk_of_valid hvalid h a (List.mem_append_left _ ha)
  have hrun := serveReads_toString (c := c) freshServers (fun _ _ => none) hheaders
  obtain ⟨hanswers, hrefines⟩ := answerAll_refines (refines_fresh c)
    fun p hp => hrouted p (List.mem_append_left rest hp)
  rw [hdone] at hanswers hrefines
  refine ⟨done, List.prefix_append .., ?_, _, _, hrun, hanswers, hrefines⟩
  intro heq
  have hbs : bs = [] := List.self_eq_append_right.1 heq
  rw [hbs, List.map_nil, collect, List.map_eq_nil_iff] at hrest
  rw [hrest, List.append_nil]

/-- Two clients of one server, one of which sends a value that needs two blobs. -/
def wirePair : Conn → List WireRequest
  | (0, 4) => [⟨7, .insert "b".toList (List.replicate 500 'x')⟩, ⟨8, .lookup "d".toList⟩]
  | (0, 5) => [⟨9, .insert "d".toList "1".toList⟩]
  | _ => []

/-- The request of the second client arrives between the blobs of the first. -/
def wireArrivals : List (Conn × Blob) :=
  let blobs : List (Conn × Blob) := tag (0, 4) ((wirePair (0, 4)).flatMap fun r => r.msg.blobs)
  blobs.take 1 ++ tag (0, 5) ((wirePair (0, 5)).flatMap fun r => r.msg.blobs) ++ blobs.drop 1

theorem wirePair_cases {conn : Conn} {r : WireRequest} (h : r ∈ wirePair conn) :
    conn = (0, 4) ∧ r ∈ wirePair (0, 4) ∨ conn = (0, 5) ∧ r ∈ wirePair (0, 5) := by
  rw [wirePair.eq_def] at h
  split at h
  · exact .inl ⟨rfl, h⟩
  · exact .inr ⟨rfl, h⟩
  · cases h

theorem wire_refines_store_pair : ∃ order : List (Conn × ZhtOp),
    (∀ conn, only conn order = (wirePair conn).map WireRequest.op) ∧ ∃ net replies,
      pairCluster.serveReads freshNet (wireArrivals.map fun a => (a.1, a.2.toString)) =
        some (net, replies) ∧ Answers (fun _ => none) order replies := by
  have hlists : ∀ conn ∈ [(0, 4), (0, 5)],
      (∀ r ∈ wirePair conn, r.op.Plain ∧ r.op.HasNewVal ∧ pairCluster.route r.op.key = conn.1 ∧
        r.msg.Sendable) ∧
      only conn wireArrivals = (wirePair conn).flatMap fun r => r.msg.blobs := by
    decide +kernel
  have hconns : ∀ a ∈ wireArrivals, a.1 ∈ [((0, 4) : Conn), (0, 5)] := by
    decide +kernel
  have hids : ∀ r ∈ wirePair (0, 4), ∀ r' ∈ wirePair (0, 5), r.uuid ≠ r'.uuid := by
    decide +kernel
  have hvalid : ∀ conn, ∀ r ∈ wirePair conn, r.Valid pairCluster conn.1 := by
    intro conn r hr
    have hmem : conn ∈ [((0, 4) : Conn), (0, 5)] := by
      rcases wirePair_cases hr with ⟨rfl, _⟩ | ⟨rfl, _⟩ <;> decide
    obtain ⟨hp, hn, hroute, hsend⟩ := (hlists conn hmem).1 r hr
    exact ⟨hp, hn, hroute, hsend⟩
  have hdistinct : ∀ i fd fd', fd ≠ fd' → ∀ r ∈ wirePair (i, fd), ∀ r' ∈ wirePair (i, fd'),
      blobSize < r.msg.text.length → blobSize < r'.msg.text.length → r.uuid ≠ r'.uuid := by
    intro i fd fd' hne r hr r' hr' _ _
    rcases wirePair_cases hr with ⟨he, hr⟩ | ⟨he, hr⟩ <;>
      rcases wirePair_cases hr' with ⟨he', hr'⟩ | ⟨he', hr'⟩ <;> cases he <;> cases he'
    · exact absurd rfl hne
    · exact hids r hr r' hr'
    · exact (hids r' hr' r hr).symm
    · exact absurd rfl hne
  have harrivals : ∀ conn, only conn wireArrivals =
      (wirePair conn).flatMap fun r => r.msg.blobs := by
    intro conn
    by_cases hmem : conn ∈ [((0, 4) : Conn), (0, 5)]
    · exact (hlists conn hmem).2
    · have hnone : wirePair conn = [] := by
        rw [List.eq_nil_iff_forall_not_mem]
        intro r hr
        rcases wirePair_cases hr with ⟨rfl, _⟩ | ⟨rfl, _⟩ <;> exact hmem (by decide)
      rw [hnone, List.flatMap_nil, List.eq_nil_iff_forall_not_mem]
      exact fun b hb => hmem (hconns _ (mem_only.1 hb))
  obtain ⟨order, horder, hprefix⟩ := wire_refines_store pairCluster hvalid hdistinct harrivals
  obtain ⟨done, _, hdone, net, replies, hrun, hanswers, _⟩ :=
    hprefix wireArrivals List.prefix_rfl
  exact ⟨order, horder, net, replies, hrun, hdone rfl ▸ hanswers⟩

end MatrixZht
