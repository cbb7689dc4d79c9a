import MatrixZht.Zht.Broker

namespace MatrixZht
open Lib

/-- The address that the `k`th registration is answered with, counting from 0. -/
def clientAddress (k : Nat) : Nat := 3 + (k + 253) % 31998

theorem clientAddress_lt (k : Nat) : 3 ≤ clientAddress k ∧ clientAddress k ≤ 32000 := by
  unfold clientAddress
  omega

theorem clientAddress_inj {j k : Nat} :
    clientAddress j = clientAddress k ↔ j % 31998 = k % 31998 := by
  unfold clientAddress
  omega

theorem bumpClient_clientAddress (k : Nat) :
    bumpClient (clientAddress k) = clientAddress (k + 1) := by
  unfold bumpClient clientAddress
  split <;> omega

theorem ofIntBytes_clientAddress (k : Nat) :
    ofIntBytes (intBytes (clientAddress k)) = clientAddress k := by
  have hlt := clientAddress_lt k
  exact ofIntBytes_intBytes (by omega)

/-- A client has an address once it is past its registration. -/
def MsgClient.CallOk (client : MsgClient) : Prop :=
  match client.xmit with
  | .out => True
  | .unregistered _ => client.myAddress = 0
  | .registering _ => client.myAddress = 0
  | .ready _ => client.myAddress ≠ 0

def Phase.taken : Phase → List MsgBuf
  | .receiving => []
  | .registering => []
  | .serving t data => [⟨t, data⟩]
  | .answering t data _ => [⟨t, data⟩]
  | .exited t data => [⟨t, data⟩]

def MqExchange.request (e : MqExchange) : MsgBuf := ⟨e.mtype, e.data⟩

def MqExchange.reply (e : MqExchange) : MsgBuf := ⟨e.mtype, e.ans⟩

section Addresses

variable {ι : Type} {b b' : Broker ι} {n : Nat}

/-- The requests the broker has received, the answered ones first. -/
def Broker.taken (b : Broker ι) : List MsgBuf := b.log.map MqExchange.request ++ b.phase.taken

/-- The requests that were sent. -/
def Broker.arrived (b : Broker ι) : List MsgBuf := b.taken ++ b.req

/-- All replies to requests. -/
def Broker.departed (b : Broker ι) : List MsgBuf := b.log.map MqExchange.reply

def Broker.Owned (b : Broker ι) (t : Nat) : Prop := t ≠ 0 ∧ ∃ c, (b.clients c).myAddress = t

/-- The addresses after `n` registrations. -/
structure Broker.Addresses (n : Nat) (b : Broker ι) : Prop where
  next : b.nextClient = clientAddress n
  held : ∀ c, (b.clients c).myAddress = 0 ∨ ∃ k < n, (b.clients c).myAddress = clientAddress k
  once : ∀ c d, (b.clients c).myAddress = (b.clients d).myAddress →
    (b.clients c).myAddress = 0 ∨ c = d
  offered : ∀ data ∈ ofType 2 b.rep, ∃ k < n, data = intBytes (clientAddress k) ∧
    ∀ c, (b.clients c).myAddress ≠ clientAddress k
  offeredOnce : (ofType 2 b.rep).Nodup
  calling : ∀ c, (b.clients c).CallOk

/-- The requests of a client are those that arrived with its address, and the replies with its
address are those it has received and those that wait for it. -/
structure Broker.Sessions (b : Broker ι) : Prop where
  arrivedOwned : ∀ m ∈ b.arrived, m.mtype = 1 ∨ b.Owned m.mtype
  takenOwned : ∀ m ∈ b.taken, m.mtype ≠ 1
  repOwned : ∀ m ∈ b.rep, m.mtype = 2 ∨ b.Owned m.mtype
  asked : ∀ c, (b.clients c).myAddress ≠ 0 →
    ofType (b.clients c).myAddress b.arrived = (b.clients c).sent
  answered : ∀ c, (b.clients c).myAddress ≠ 0 → ofType (b.clients c).myAddress b.departed =
    (b.clients c).got ++ ofType (b.clients c).myAddress b.rep
  fresh : ∀ c, (b.clients c).myAddress = 0 → (b.clients c).sent = [] ∧ (b.clients c).got = []

theorem initBroker_addresses : (initBroker : Broker ι).Addresses 0 where
  next := rfl
  held _ := Or.inl rfl
  once _ _ _ := Or.inl rfl
  offered _ h := absurd h List.not_mem_nil
  offeredOnce := List.nodup_nil
  calling _ := trivial

theorem initBroker_sessions : (initBroker : Broker ι).Sessions where
  arrivedOwned _ h := absurd h List.not_mem_nil
  takenOwned _ h := absurd h List.not_mem_nil
  repOwned _ h := absurd h List.not_mem_nil
  asked _ h := absurd rfl h
  answered _ h := absurd rfl h
  fresh _ _ := ⟨rfl, rfl⟩

theorem Broker.Addresses.of_owned (h : b.Addresses n) {t : Nat} (ht : b.Owned t) :
    ∃ k < n, t = clientAddress k := by
  obtain ⟨hne, c, rfl⟩ := ht
  exact (h.held c).resolve_left hne

theorem Broker.Addresses.three_le (h : b.Addresses n) {t : Nat} (ht : b.Owned t) : 3 ≤ t := by
  obtain ⟨k, -, rfl⟩ := h.of_owned ht
  exact (clientAddress_lt k).1

theorem Broker.Addresses.congr (h : b.Addresses n) (hnext : b'.nextClient = b.nextClient)
    (hrep : ofType 2 b'.rep = ofType 2 b.rep)
    (hclients : ∀ c, (b'.clients c).myAddress = (b.clients c).myAddress ∧ (b'.clients c).CallOk) :
    b'.Addresses n where
  next := hnext.trans h.next
  held c := (hclients c).1 ▸ h.held c
  once c d he := by
    rw [(hclients c).1, (hclients d).1] at he
    exact (hclients c).1 ▸ h.once c d he
  offered data hdata := by
    obtain ⟨k, hk, he, hfree⟩ := h.offered data (hrep ▸ hdata)
    exact ⟨k, hk, he, fun c => (hclients c).1 ▸ hfree c⟩
  offeredOnce := hrep ▸ h.offeredOnce
  calling c := (hclients c).2

/-- The next address is neither held nor on its way, as long as no address has come twice. -/
theorem Broker.Addresses.assign (h : b.Addresses n) (hn : n < 31998) :
    Broker.Addresses (n + 1) { b with
      rep := b.rep ++ [⟨2, intBytes b.nextClient⟩]
      phase := .receiving
      nextClient := bumpClient b.nextClient } := by
  have hnew : ∀ k < n, clientAddress k ≠ clientAddress n := by
    intro k hk he
    have hmod := clientAddress_inj.1 he
    omega
  have hofType : ofType 2 (b.rep ++ [⟨2, intBytes b.nextClient⟩]) =
      ofType 2 b.rep ++ [intBytes b.nextClient] := by
    rw [ofType_append]
    rfl
  have hfree : ∀ c, (b.clients c).myAddress ≠ clientAddress n := by
    intro c he
    rcases h.held c with h0 | ⟨k, hk, hck⟩
    · have hlt := clientAddress_lt n
      omega
    · exact hnew k hk (hck.symm.trans he)
  have hbytes : ∀ k, intBytes (clientAddress k) = intBytes (clientAddress n) →
      clientAddress k = clientAddress n := by
    intro k he
    rw [← ofIntBytes_clientAddress k, he, ofIntBytes_clientAddress]
  constructor
  · exact h.next ▸ bumpClient_clientAddress n
  · intro c
    rcases h.held c with h0 | ⟨k, hk, hck⟩
    · exact Or.inl h0
    · exact Or.inr ⟨k, by omega, hck⟩
  · exact h.once
  · intro data hdata
    rcases List.mem_append.1 (hofType ▸ hdata) with hdata | hdata
    · obtain ⟨k, hk, he, hkfree⟩ := h.offered data hdata
      exact ⟨k, by omega, he, hkfree⟩
    · exact ⟨n, by omega, by rw [List.mem_singleton.1 hdata, h.next], hfree⟩
  · refine hofType ▸ List.Nodup.append h.offeredOnce (List.nodup_singleton _) ?_
    intro data hdata hnextdata
    obtain ⟨k, hk, he, -⟩ := h.offered data hdata
    rw [List.mem_singleton.1 hnextdata, h.next] at he
    exact hnew k hk (hbytes k he.symm)
  · exact h.calling

theorem Broker.Sessions.owned_of_taken (h : b.Sessions) (m : MsgBuf) (hm : m ∈ b.taken) :
    b.Owned m.mtype :=
  (h.arrivedOwned m (List.mem_append_left _ hm)).resolve_left (h.takenOwned m hm)

theorem Broker.taken_of_phase {phase : Phase} (h : b.phase = phase) :
    b.taken = b.log.map MqExchange.request ++ phase.taken := by
  rw [Broker.taken, h]

theorem Broker.mem_taken {t : Nat} {data : Str} (h : ⟨t, data⟩ ∈ b.phase.taken) :
    ⟨t, data⟩ ∈ b.taken := List.mem_append_right _ h

theorem Broker.request_mem_taken {e : MqExchange} (h : e ∈ b.log) : e.request ∈ b.taken :=
  List.mem_append_left _ (List.mem_map_of_mem h)

theorem startXmit_eq (client : MsgClient) (data : Str) :
    (startXmit client data).myAddress = client.myAddress ∧
      (startXmit client data).sent = client.sent ∧ (startXmit client data).got = client.got ∧
        (startXmit client data).CallOk := by
  rw [startXmit]
  split
  · exact ⟨rfl, rfl, rfl, ‹_›⟩
  · exact ⟨rfl, rfl, rfl, ‹_›⟩

end Addresses

section Steps

variable {ι : Type} [DecidableEq ι] {b b' : Broker ι} {n : Nat} {a : BrokerAct ι}

theorem Broker.setClient_clients (b : Broker ι) (c d : ι) (client : MsgClient) :
    (b.setClient c client).clients d = if d = c then client else b.clients d := by
  rw [Broker.setClient]
  exact Function.update_apply ..

theorem Broker.forall_setClient {P : ι → MsgClient → Prop} {c : ι} {client : MsgClient}
    (hc : P c client) (h : ∀ d, P d (b.clients d)) (d : ι) :
    P d ((b.setClient c client).clients d) := by
  rw [Broker.setClient_clients]
  split
  · rename_i hd
    exact hd ▸ hc
  · exact h d

theorem Broker.Addresses.address (h : b.Addresses n) {c : ι} {data : Str} {m : MsgBuf}
    {rep : List MsgBuf} (hrcv : msgrcv 2 b.rep = some (m, rep)) :
    Broker.Addresses n { b.setClient c
      { b.clients c with myAddress := ofIntBytes m.mdata, xmit := .ready data } with
      rep := rep } := by
  obtain ⟨hm, hsame, -⟩ := msgrcv_ofType (by decide) hrcv
  obtain ⟨k, hk, he, hfree⟩ := h.offered m.mdata (hsame ▸ List.mem_cons_self)
  have haddr : ofIntBytes m.mdata = clientAddress k := he ▸ ofIntBytes_clientAddress k
  have hlt := clientAddress_lt k
  have honce := h.offeredOnce
  rw [hsame, List.nodup_cons] at honce
  constructor
  · exact h.next
  · intro d
    dsimp only
    rw [Broker.setClient_clients]
    split
    · exact Or.inr ⟨k, hk, haddr⟩
    · exact h.held d
  · intro d e hde
    dsimp only at hde ⊢
    rw [Broker.setClient_clients, Broker.setClient_clients] at hde
    rw [Broker.setClient_clients]
    by_cases hd : d = c
    · by_cases hec : e = c
      · exact Or.inr (hd.trans hec.symm)
      · rw [if_pos hd, if_neg hec] at hde
        exact absurd (hde.symm.trans haddr) (hfree e)
    · by_cases hec : e = c
      · rw [if_neg hd, if_pos hec] at hde
        exact absurd (hde.trans haddr) (hfree d)
      · rw [if_neg hd, if_neg hec] at hde
        rw [if_neg hd]
        exact h.once d e hde
  · intro x hx
    obtain ⟨j, hj, hxj, hjfree⟩ := h.offered x (hsame ▸ List.mem_cons_of_mem _ hx)
    refine ⟨j, hj, hxj, fun d => ?_⟩
    dsimp only
    rw [Broker.setClient_clients]
    split
    · intro hjk
      have hkj : clientAddress k = clientAddress j := haddr.symm.trans hjk
      rw [hxj, ← hkj, ← he] at hx
      exact honce.1 hx
    · exact hjfree d
  · exact honce.2
  · intro d
    refine Broker.forall_setClient (P := fun _ client => client.CallOk) ?_ h.calling d
    change ofIntBytes m.mdata ≠ 0
    omega

theorem Broker.Addresses.step (h : b.Addresses n) (hs : b.Sessions) (ha : a = .assign → n < 31998)
    (hmove : b.Moves a b') : b'.Addresses (if a = .assign then n + 1 else n) := by
  have hclient : ∀ c client, client.myAddress = (b.clients c).myAddress → client.CallOk →
      ∀ d, ((b.setClient c client).clients d).myAddress = (b.clients d).myAddress ∧
        ((b.setClient c client).clients d).CallOk := fun c client haddr hok =>
    Broker.forall_setClient
      (P := fun d client => client.myAddress = (b.clients d).myAddress ∧ client.CallOk)
      ⟨haddr, hok⟩ fun d => ⟨rfl, h.calling d⟩
  cases hmove with
  | xmit c data _ =>
    have hstart := startXmit_eq (b.clients c) data
    exact h.congr rfl rfl (hclient c _ hstart.1 hstart.2.2.2)
  | register c data hx =>
    have hok := h.calling c
    rw [MsgClient.CallOk, hx] at hok
    exact h.congr rfl rfl (hclient c _ rfl hok)
  | address c data m rep _ hrcv => exact h.address hrcv
  | request c data _ => exact h.congr rfl rfl (hclient c _ rfl trivial)
  | refused c data _ _ => exact h.congr rfl rfl (hclient c _ rfl trivial)
  | recv c m rep hout hne hrcv =>
    have hok : MsgClient.CallOk { b.clients c with got := (b.clients c).got ++ [m.mdata] } := by
      rw [MsgClient.CallOk, hout]
      trivial
    have hge := h.three_le ⟨hne, c, rfl⟩
    exact h.congr rfl ((msgrcv_ofType hne hrcv).2.2 2 (by omega)).symm (hclient c _ rfl hok)
  | takeRegistration data req _ _ => exact h.congr rfl rfl fun c => ⟨rfl, h.calling c⟩
  | takeRequest m req _ _ _ => exact h.congr rfl rfl fun c => ⟨rfl, h.calling c⟩
  | assign _ => exact h.assign (ha rfl)
  | answer t data ans _ => exact h.congr rfl rfl fun c => ⟨rfl, h.calling c⟩
  | unanswered t data _ => exact h.congr rfl rfl fun c => ⟨rfl, h.calling c⟩
  | reply t data ans hphase =>
    have hge := h.three_le (hs.owned_of_taken ⟨t, data⟩
      (Broker.mem_taken (by rw [hphase]; exact List.mem_cons_self)))
    have htwo : t ≠ 2 := by
      dsimp only at hge
      omega
    exact h.congr rfl (ofType_concat_of_ne htwo) fun c => ⟨rfl, h.calling c⟩
  | unsent t data ans _ _ => exact h.congr rfl rfl fun c => ⟨rfl, h.calling c⟩

omit [DecidableEq ι] in
/-- Steps in which no client's history changes. A reply leaves and waits at once. -/
theorem Broker.Sessions.congr (h : b.Sessions) (haddr : b.Addresses n)
    (hclients : ∀ c, (b'.clients c).myAddress = (b.clients c).myAddress ∧
      (b'.clients c).sent = (b.clients c).sent ∧ (b'.clients c).got = (b.clients c).got)
    (harr : ∀ t, t ≠ 1 → ofType t b'.arrived = ofType t b.arrived)
    (htaken : ∀ m ∈ b'.taken, m.mtype ≠ 1)
    (hrep : ∀ m ∈ b'.rep, m.mtype = 2 ∨ b.Owned m.mtype)
    (hdep : ∀ t, t ≠ 2 → ∃ ans, ofType t b'.departed = ofType t b.departed ++ ans ∧
      ofType t b'.rep = ofType t b.rep ++ ans) : b'.Sessions := by
  have howned : ∀ t, b.Owned t → b'.Owned t := by
    rintro t ⟨hne, c, hc⟩
    exact ⟨hne, c, (hclients c).1.trans hc⟩
  constructor
  · intro m hm
    by_cases hone : m.mtype = 1
    · exact Or.inl hone
    · have hmem := mem_ofType.1 (harr m.mtype hone ▸ mem_ofType.2 hm)
      exact Or.inr (howned _ ((h.arrivedOwned _ hmem).resolve_left hone))
  · exact htaken
  · exact fun m hm => (hrep m hm).imp id (howned _)
  · intro c hne
    rw [(hclients c).1] at hne ⊢
    have hge := haddr.three_le ⟨hne, c, rfl⟩
    rw [(hclients c).2.1, harr _ (by omega), h.asked c hne]
  · intro c hne
    rw [(hclients c).1] at hne ⊢
    have hge := haddr.three_le ⟨hne, c, rfl⟩
    obtain ⟨ans, hdepart, hwait⟩ := hdep (b.clients c).myAddress (by omega)
    rw [(hclients c).2.2, hdepart, hwait, h.answered c hne, List.append_assoc]
  · intro c hzero
    rw [(hclients c).1] at hzero
    rw [(hclients c).2.1, (hclients c).2.2]
    exact h.fresh c hzero

/-- Steps of one client `c`, which leave the messages of the others as they are. -/
theorem Broker.Sessions.ofClient (h : b.Sessions) (haddr : b.Addresses n) {n' : Nat}
    (haddr' : b'.Addresses n') {c : ι} {client : MsgClient} (hself : b'.clients c = client)
    (hothers : ∀ d, d ≠ c → b'.clients d = b.clients d)
    (hkeep : (b.clients c).myAddress = 0 ∨ client.myAddress = (b.clients c).myAddress)
    (hne : client.myAddress ≠ 0) (hphase : b'.phase = b.phase) (hlog : b'.log = b.log)
    (hreq : ∀ t, t ≠ client.myAddress → ofType t b'.req = ofType t b.req)
    (hrep : ∀ t, t ≠ 2 → t ≠ client.myAddress → ofType t b'.rep = ofType t b.rep)
    (hasked : ofType client.myAddress b'.arrived = client.sent)
    (hanswered : ofType client.myAddress b.departed =
      client.got ++ ofType client.myAddress b'.rep) : b'.Sessions := by
  have htaken : b'.taken = b.taken := by rw [Broker.taken, hphase, hlog, Broker.taken]
  have harr : ∀ t, t ≠ client.myAddress → ofType t b'.arrived = ofType t b.arrived := by
    intro t ht
    rw [Broker.arrived, Broker.arrived, htaken, ofType_append, ofType_append _ _ b.req, hreq t ht]
  have hdep : b'.departed = b.departed := by rw [Broker.departed, hlog, Broker.departed]
  have howner : b'.Owned client.myAddress := ⟨hne, c, by rw [hself]⟩
  have howned : ∀ t, b.Owned t → b'.Owned t := by
    rintro t ⟨ht, d, rfl⟩
    by_cases hd : d = c
    · rw [hd] at ht ⊢
      exact ⟨ht, c, by rw [hself, hkeep.resolve_left ht]⟩
    · exact ⟨ht, d, by rw [hothers d hd]⟩
  have hother : ∀ d, d ≠ c → (b.clients d).myAddress ≠ 0 →
      (b.clients d).myAddress ≠ client.myAddress := by
    intro d hd hdne he
    rw [← hothers d hd] at hdne he
    exact hd ((haddr'.once d c (by rw [he, hself])).resolve_left hdne)
  constructor
  · intro m hm
    by_cases hmc : m.mtype = client.myAddress
    · exact Or.inr (hmc ▸ howner)
    · have hmem := mem_ofType.1 (harr m.mtype hmc ▸ mem_ofType.2 hm)
      exact (h.arrivedOwned _ hmem).imp id (howned _)
  · rw [htaken]
    exact h.takenOwned
  · intro m hm
    by_cases htwo : m.mtype = 2
    · exact Or.inl htwo
    by_cases hmc : m.mtype = client.myAddress
    · exact Or.inr (hmc ▸ howner)
    · have hmem := mem_ofType.1 (hrep m.mtype htwo hmc ▸ mem_ofType.2 hm)
      exact (h.repOwned _ hmem).imp id (howned _)
  · intro d hdne
    by_cases hd : d = c
    · rw [hd, hself]
      exact hasked
    · rw [hothers d hd] at hdne ⊢
      rw [harr _ (hother d hd hdne), h.asked d hdne]
  · intro d hdne
    rw [hdep]
    by_cases hd : d = c
    · rw [hd, hself]
      exact hanswered
    · rw [hothers d hd] at hdne ⊢
      have hge := haddr.three_le ⟨hdne, d, rfl⟩
      rw [hrep _ (by omega) (hother d hd hdne), h.answered d hdne]
  · intro d hzero
    by_cases hd : d = c
    · rw [hd, hself] at hzero
      exact absurd hzero hne
    · rw [hothers d hd] at hzero ⊢
      exact h.fresh d hzero

theorem Broker.setClient_self (b : Broker ι) (c : ι) (client : MsgClient) :
    (b.setClient c client).clients c = client := by
  rw [Broker.setClient_clients, if_pos rfl]

theorem Broker.setClient_other (b : Broker ι) {c d : ι} (client : MsgClient) (h : d ≠ c) :
    (b.setClient c client).clients d = b.clients d := by
  rw [Broker.setClient_clients, if_neg h]

theorem Broker.setClient_req (b : Broker ι) (c : ι) (client : MsgClient) :
    (b.setClient c client).req = b.req := rfl

theorem Broker.setClient_rep (b : Broker ι) (c : ι) (client : MsgClient) :
    (b.setClient c client).rep = b.rep := rfl

theorem Broker.setClient_phase (b : Broker ι) (c : ι) (client : MsgClient) :
    (b.setClient c client).phase = b.phase := rfl

theorem Broker.setClient_setClient (b : Broker ι) (c : ι) (x y : MsgClient) :
    (b.setClient c x).setClient c y = b.setClient c y := by
  rw [Broker.setClient, Broker.setClient, Broker.setClient, Function.update_idem]

theorem Broker.history_setClient {c : ι} {client : MsgClient}
    (haddress : client.myAddress = (b.clients c).myAddress)
    (hsent : client.sent = (b.clients c).sent) (hgot : client.got = (b.clients c).got) (d : ι) :
    ((b.setClient c client).clients d).myAddress = (b.clients d).myAddress ∧
      ((b.setClient c client).clients d).sent = (b.clients d).sent ∧
      ((b.setClient c client).clients d).got = (b.clients d).got :=
  Broker.forall_setClient
    (P := fun d client => client.myAddress = (b.clients d).myAddress ∧
      client.sent = (b.clients d).sent ∧ client.got = (b.clients d).got)
    ⟨haddress, hsent, hgot⟩ (fun _ => ⟨rfl, rfl, rfl⟩) d

omit [DecidableEq ι] in
theorem Broker.Sessions.ofUnanswered (h : b.Sessions) (haddr : b.Addresses n)
    (hclients : ∀ c, (b'.clients c).myAddress = (b.clients c).myAddress ∧
      (b'.clients c).sent = (b.clients c).sent ∧ (b'.clients c).got = (b.clients c).got)
    (hlog : b'.log = b.log) (hrep : b'.rep = b.rep)
    (harr : ∀ t, t ≠ 1 → ofType t b'.arrived = ofType t b.arrived)
    (htaken : ∀ m ∈ b'.taken, m.mtype ≠ 1) : b'.Sessions := by
  refine h.congr haddr hclients harr htaken (hrep ▸ h.repOwned) fun t _ => ⟨[], ?_, ?_⟩
  · rw [Broker.departed, hlog, List.append_nil, Broker.departed]
  · rw [hrep, List.append_nil]

theorem Broker.Sessions.register (h : b.Sessions) (haddr : b.Addresses n) (c : ι) (data : Str) :
    Broker.Sessions { b.setClient c { b.clients c with xmit := .registering data } with
      req := b.req ++ [⟨1, "R".toList⟩] } := by
  refine h.ofUnanswered haddr (Broker.history_setClient rfl rfl rfl) rfl rfl ?_ h.takenOwned
  intro t ht
  have hone : (MsgBuf.mk 1 "R".toList).mtype ≠ t := ht.symm
  exact (congrArg (ofType t) (List.append_assoc ..).symm).trans (ofType_concat_of_ne hone)

theorem Broker.Sessions.address (h : b.Sessions) (haddr : b.Addresses n) {c : ι} {data : Str}
    {m : MsgBuf} {rep : List MsgBuf} (hx : (b.clients c).xmit = .registering data)
    (hrcv : msgrcv 2 b.rep = some (m, rep)) :
    Broker.Sessions { b.setClient c
      { b.clients c with myAddress := ofIntBytes m.mdata, xmit := .ready data } with
      rep := rep } := by
  obtain ⟨hm, hcons, hother⟩ := msgrcv_ofType (by decide) hrcv
  obtain ⟨k, -, he, hfree⟩ := haddr.offered m.mdata (hcons ▸ List.mem_cons_self)
  have hnew : ofIntBytes m.mdata = clientAddress k := he ▸ ofIntBytes_clientAddress k
  have hlt := clientAddress_lt k
  have hzero : (b.clients c).myAddress = 0 := by
    have hok := haddr.calling c
    rwa [MsgClient.CallOk, hx] at hok
  have hnone : ∀ t, b.Owned t → t ≠ clientAddress k := by
    rintro t ⟨-, d, rfl⟩
    exact hfree d
  have harrived : ofType (clientAddress k) b.arrived = [] := by
    rw [ofType_eq_nil]
    intro x hx hxk
    rcases h.arrivedOwned x hx with hone | howned
    · omega
    · exact hnone _ howned hxk
  have hrep : ofType (clientAddress k) b.rep = [] := by
    rw [ofType_eq_nil]
    intro x hx hxk
    rcases h.repOwned x hx with htwo | howned
    · omega
    · exact hnone _ howned hxk
  have hdeparted : ofType (clientAddress k) b.departed = [] := by
    rw [ofType_eq_nil]
    intro x hx hxk
    obtain ⟨e, he, rfl⟩ := List.mem_map.1 hx
    exact ofType_eq_nil.1 harrived e.request
      (List.mem_append_left _ (Broker.request_mem_taken he)) hxk
  refine h.ofClient haddr (haddr.address hrcv) (Broker.setClient_self ..)
    (fun d hd => Broker.setClient_other _ _ hd) (Or.inl hzero) ?_ rfl rfl (fun _ _ => rfl)
    (fun t ht _ => (hother t ht).symm) ?_ ?_
  · dsimp only
    omega
  · dsimp only
    rw [hnew, (h.fresh c hzero).1]
    exact harrived
  · dsimp only
    rw [hnew, (h.fresh c hzero).2, ← hother _ (by omega), hrep]
    exact hdeparted

theorem Broker.Sessions.request (h : b.Sessions) (haddr : b.Addresses n) {n' : Nat} {c : ι}
    {data : Str} (hx : (b.clients c).xmit = .ready data)
    (haddr' : Broker.Addresses n' { b.setClient c
      { b.clients c with xmit := .out, sent := (b.clients c).sent ++ [data] } with
      req := b.req ++ [⟨(b.clients c).myAddress, data⟩] }) :
    Broker.Sessions { b.setClient c
      { b.clients c with xmit := .out, sent := (b.clients c).sent ++ [data] } with
      req := b.req ++ [⟨(b.clients c).myAddress, data⟩] } := by
  have hne : (b.clients c).myAddress ≠ 0 := by
    have hok := haddr.calling c
    rwa [MsgClient.CallOk, hx] at hok
  refine h.ofClient haddr haddr' (Broker.setClient_self ..)
    (fun d hd => Broker.setClient_other _ _ hd) (Or.inr rfl) hne rfl rfl
    (fun t ht => ofType_concat_of_ne ht.symm) (fun _ _ _ => rfl) ?_ (h.answered c hne)
  dsimp only
  rw [← h.asked c hne, Broker.arrived, ← List.append_assoc, ofType_concat, if_pos rfl]
  rfl

theorem Broker.Sessions.recv (h : b.Sessions) (haddr : b.Addresses n) {n' : Nat} {c : ι}
    {m : MsgBuf} {rep : List MsgBuf} (hne : (b.clients c).myAddress ≠ 0)
    (hrcv : msgrcv (b.clients c).myAddress b.rep = some (m, rep))
    (haddr' : Broker.Addresses n' { b.setClient c
      { b.clients c with got := (b.clients c).got ++ [m.mdata] } with rep := rep }) :
    Broker.Sessions { b.setClient c
      { b.clients c with got := (b.clients c).got ++ [m.mdata] } with rep := rep } := by
  obtain ⟨hm, hcons, hother⟩ := msgrcv_ofType hne hrcv
  refine h.ofClient haddr haddr' (Broker.setClient_self ..)
    (fun d hd => Broker.setClient_other _ _ hd) (Or.inr rfl) hne rfl rfl (fun _ _ => rfl)
    (fun t _ ht => (hother t ht).symm) (h.asked c hne) ?_
  dsimp only
  rw [List.append_assoc, List.singleton_append, ← hcons]
  exact h.answered c hne

omit [DecidableEq ι] in
theorem Broker.Sessions.takeRegistration (h : b.Sessions) (haddr : b.Addresses n) {data : Str}
    {req : List MsgBuf} (hphase : b.phase = .receiving) (hreq : b.req = ⟨1, data⟩ :: req) :
    Broker.Sessions { b with req := req, phase := .registering } := by
  have htaken := Broker.taken_of_phase hphase
  refine h.ofUnanswered haddr (fun _ => ⟨rfl, rfl, rfl⟩) rfl rfl ?_
    fun m hm => h.takenOwned m (htaken ▸ hm)
  intro t ht
  have hone : (MsgBuf.mk 1 data).mtype ≠ t := ht.symm
  rw [Broker.arrived, Broker.arrived, hreq, htaken, ofType_append, ofType_append _ _ (_ :: _),
    ofType_cons, if_neg hone]
  rfl

omit [DecidableEq ι] in
theorem Broker.Sessions.takeRequest (h : b.Sessions) (haddr : b.Addresses n) {m : MsgBuf}
    {req : List MsgBuf} (hphase : b.phase = .receiving) (hreq : b.req = m :: req)
    (hm : m.mtype ≠ 1) :
    Broker.Sessions { b with req := req, phase := .serving m.mtype m.mdata } := by
  have htaken := Broker.taken_of_phase hphase
  refine h.ofUnanswered haddr (fun _ => ⟨rfl, rfl, rfl⟩) rfl rfl ?_ ?_
  · intro t _
    rw [Broker.arrived, Broker.taken, Broker.arrived, hreq, htaken]
    simp only [Phase.taken, List.append_nil, List.append_assoc, List.singleton_append]
  · intro x hx
    rcases List.mem_append.1 hx with hx | hx
    · exact h.takenOwned x (List.mem_append_left _ hx)
    · rw [List.mem_singleton.1 hx]
      exact hm

omit [DecidableEq ι] in
theorem Broker.Sessions.assign (h : b.Sessions) (haddr : b.Addresses n)
    (hphase : b.phase = .registering) :
    Broker.Sessions { b with
      rep := b.rep ++ [⟨2, intBytes b.nextClient⟩]
      phase := .receiving
      nextClient := bumpClient b.nextClient } := by
  have htaken := Broker.taken_of_phase hphase
  refine h.congr haddr (fun _ => ⟨rfl, rfl, rfl⟩) ?_ (fun m hm => h.takenOwned m (htaken ▸ hm))
    ?_ ?_
  · intro t _
    rw [Broker.arrived, Broker.arrived, htaken]
    rfl
  · intro m hm
    rcases List.mem_append.1 hm with hm | hm
    · exact h.repOwned m hm
    · exact Or.inl (by rw [List.mem_singleton.1 hm])
  · intro t ht
    refine ⟨[], (List.append_nil _).symm, ?_⟩
    rw [List.append_nil]
    exact ofType_concat_of_ne (fun he => ht he.symm)

omit [DecidableEq ι] in
theorem Broker.Sessions.setPhase (h : b.Sessions) (haddr : b.Addresses n) {phase phase' : Phase}
    (hphase : b.phase = phase) (he : phase'.taken = phase.taken) :
    Broker.Sessions { b with phase := phase' } := by
  have htaken : Broker.taken { b with phase := phase' } = b.taken := by
    rw [Broker.taken_of_phase hphase, ← he]
    rfl
  refine h.ofUnanswered haddr (fun _ => ⟨rfl, rfl, rfl⟩) rfl rfl ?_
    fun m hm => h.takenOwned m (htaken ▸ hm)
  intro u _
  rw [Broker.arrived, Broker.arrived, htaken]

omit [DecidableEq ι] in
theorem Broker.Sessions.reply (h : b.Sessions) (haddr : b.Addresses n) {t : Nat} {data ans : Str}
    (hphase : b.phase = .answering t data ans) :
    Broker.Sessions { b with
      rep := b.rep ++ [⟨t, ans⟩], phase := .receiving, log := b.log ++ [⟨t, data, ans⟩] } := by
  have htaken := Broker.taken_of_phase hphase
  have howned := h.owned_of_taken ⟨t, data⟩ (htaken ▸ List.mem_append_right _ List.mem_cons_self)
  have hlog : (b.log ++ [MqExchange.mk t data ans]).map MqExchange.request ++ [] = b.taken := by
    rw [List.append_nil, List.map_append, htaken]
    rfl
  refine h.congr haddr (fun _ => ⟨rfl, rfl, rfl⟩) ?_ (fun m hm => h.takenOwned m (hlog ▸ hm)) ?_ ?_
  · intro u _
    rw [Broker.arrived, Broker.arrived, ← hlog]
    rfl
  · intro m hm
    rcases List.mem_append.1 hm with hm | hm
    · exact h.repOwned m hm
    · exact Or.inr (by rw [List.mem_singleton.1 hm]; exact howned)
  · intro u _
    refine ⟨if t = u then [ans] else [], ?_, ofType_concat ..⟩
    rw [Broker.departed, List.map_append]
    exact ofType_concat ..

theorem Broker.Sessions.step (h : b.Sessions) (haddr : b.Addresses n) {n' : Nat}
    (haddr' : b'.Addresses n') (hmove : b.Moves a b') : b'.Sessions := by
  cases hmove with
  | xmit c data _ =>
    have hstart := startXmit_eq (b.clients c) data
    exact h.ofUnanswered haddr (Broker.history_setClient hstart.1 hstart.2.1 hstart.2.2.1) rfl rfl
      (fun _ _ => rfl) h.takenOwned
  | register c data _ => exact h.register haddr c data
  | address c data m rep hx hrcv => exact h.address haddr hx hrcv
  | request c data hx => exact h.request haddr hx haddr'
  | refused c data _ _ =>
    exact h.ofUnanswered haddr (Broker.history_setClient rfl rfl rfl) rfl rfl (fun _ _ => rfl)
      h.takenOwned
  | recv c m rep _ hne hrcv => exact h.recv haddr hne hrcv haddr'
  | takeRegistration data req hphase hreq => exact h.takeRegistration haddr hphase hreq
  | takeRequest m req hphase hreq hm => exact h.takeRequest haddr hphase hreq hm
  | assign hphase => exact h.assign haddr hphase
  | answer t data ans hphase => exact h.setPhase haddr hphase rfl
  | unanswered t data hphase => exact h.setPhase haddr hphase rfl
  | reply t data ans hphase => exact h.reply haddr hphase
  | unsent t data ans hphase _ => exact h.setPhase haddr hphase rfl

theorem Broker.run_sessions {qbytes : Nat} {as : List (BrokerAct ι)}
    (h : runActs (Broker.step qbytes) b as = some b') (haddr : b.Addresses n) (hs : b.Sessions)
    (hn : n + as.count .assign ≤ 31998) :
    b'.Addresses (n + as.count .assign) ∧ b'.Sessions := by
  induction as generalizing b n with
  | nil =>
    cases h
    exact ⟨haddr, hs⟩
  | cons a as ih =>
    obtain ⟨b₁, h₁, hrest⟩ := Option.bind_eq_some_iff.1 h
    have hmove := Broker.moves_of_step h₁
    rw [List.count_cons, Nat.add_comm (as.count _), ← Nat.add_assoc] at hn ⊢
    have hcount : (n + if a == .assign then 1 else 0) = if a = .assign then n + 1 else n := by
      by_cases ha : a = .assign
      · rw [if_pos ha, if_pos (beq_iff_eq.2 ha)]
      · rw [if_neg ha, if_neg (by simpa using ha), Nat.add_zero]
    have haddr₁ := haddr.step hs (fun ha => by rw [if_pos (beq_iff_eq.2 ha)] at hn; omega) hmove
    rw [hcount] at hn ⊢
    exact ih hrest haddr₁ (hs.step haddr haddr₁ hmove) hn

end Steps

/-- What was answered to the address of a client. -/
def Broker.exchanges {ι : Type} (b : Broker ι) (c : ι) : List MqExchange :=
  b.log.filter (·.mtype = (b.clients c).myAddress)

theorem Broker.exchanges_map {ι : Type} (b : Broker ι) (c : ι) (f : MqExchange → MsgBuf)
    (hf : ∀ e, (f e).mtype = e.mtype) :
    ofType (b.clients c).myAddress (b.log.map f) = (b.exchanges c).map fun e => (f e).mdata := by
  rw [ofType, List.filter_map, List.map_map, Broker.exchanges]
  congr 1
  exact List.filter_congr fun e _ => by simp only [Function.comp_apply, hf]

theorem Broker.Sessions.sent_eq {ι : Type} {b : Broker ι} (h : b.Sessions) {c : ι}
    (hne : (b.clients c).myAddress ≠ 0) :
    (b.clients c).sent = (b.exchanges c).map MqExchange.data ++
      ofType (b.clients c).myAddress (b.phase.taken ++ b.req) := by
  rw [← h.asked c hne, Broker.arrived, Broker.taken, List.append_assoc, ofType_append,
    b.exchanges_map c MqExchange.request fun _ => rfl]
  rfl

theorem Broker.Sessions.ans_eq {ι : Type} {b : Broker ι} (h : b.Sessions) {c : ι}
    (hne : (b.clients c).myAddress ≠ 0) : (b.exchanges c).map MqExchange.ans =
      (b.clients c).got ++ ofType (b.clients c).myAddress b.rep := by
  rw [← h.answered c hne, Broker.departed, b.exchanges_map c MqExchange.reply fun _ => rfl]
  rfl

theorem Broker.Sessions.exchanges_eq {ι : Type} {b : Broker ι} (h : b.Sessions) {c : ι}
    (heq : (b.clients c).sent.length = (b.clients c).got.length) :
    (b.clients c).sent = (b.exchanges c).map MqExchange.data ∧
      (b.clients c).got = (b.exchanges c).map MqExchange.ans := by
  by_cases hne : (b.clients c).myAddress = 0
  · have hnone : b.exchanges c = [] := by
      rw [Broker.exchanges, List.filter_eq_nil_iff]
      intro e he
      have howned := h.owned_of_taken e.request (Broker.request_mem_taken he)
      simpa [hne, MqExchange.request] using howned.1
    rw [hnone, (h.fresh c hne).1, (h.fresh c hne).2]
    exact ⟨rfl, rfl⟩
  · have hsent := h.sent_eq hne
    have hans := h.ans_eq hne
    have hsentLen := congrArg List.length hsent
    have hansLen := congrArg List.length hans
    rw [List.length_append, List.length_map] at hsentLen hansLen
    have hpending : ofType (b.clients c).myAddress (b.phase.taken ++ b.req) = [] :=
      List.eq_nil_of_length_eq_zero (by omega)
    have hwaiting : ofType (b.clients c).myAddress b.rep = [] :=
      List.eq_nil_of_length_eq_zero (by omega)
    rw [hpending, List.append_nil] at hsent
    rw [hwaiting, List.append_nil] at hans
    exact ⟨hsent, hans.symm⟩

/-- As long as the addresses have not come round, no two clients share one. The requests a client
has sent are those answered to its address, in order, and those that the broker has not answered
yet, and the replies it has received are a first part of the answers. -/
theorem broker_exchanges {ι : Type} [DecidableEq ι] {qbytes : Nat} {as : List (BrokerAct ι)}
    {b : Broker ι} (h : runActs (Broker.step qbytes) initBroker as = some b)
    (hn : as.count .assign ≤ 31998) :
    (∀ e ∈ b.log, ∃ c, (b.clients c).myAddress = e.mtype) ∧
      (∀ c, (b.clients c).myAddress = 0 → (b.clients c).sent = [] ∧ (b.clients c).got = []) ∧
        ∀ c, (b.clients c).myAddress ≠ 0 →
          (∀ d, (b.clients d).myAddress = (b.clients c).myAddress → d = c) ∧
            (b.clients c).sent = (b.exchanges c).map MqExchange.data ++
              ofType (b.clients c).myAddress (b.phase.taken ++ b.req) ∧
            (b.exchanges c).map MqExchange.ans =
              (b.clients c).got ++ ofType (b.clients c).myAddress b.rep := by
  obtain ⟨haddr, hs⟩ := Broker.run_sessions h initBroker_addresses initBroker_sessions
    (by rwa [Nat.zero_add])
  refine ⟨?_, hs.fresh, fun c hne => ⟨?_, hs.sent_eq hne, hs.ans_eq hne⟩⟩
  · intro e he
    exact (hs.owned_of_taken e.request (Broker.request_mem_taken he)).2
  · intro d hd
    exact (haddr.once d c hd).resolve_left (hd ▸ hne)

/-- Two clients that register at the same time, one of which is answered. -/
def twoMqClients : List (BrokerAct Bool) :=
  [.xmit true "a".toList, .xmit false "b".toList, .register false, .register true, .take, .assign,
    .address true, .take, .assign, .address false, .request false, .request true, .take,
    .answer (some "c".toList), .reply]

theorem broker_exchanges_two : ∃ b, runActs (Broker.step 16384) initBroker twoMqClients = some b ∧
    (b.clients false).myAddress = 257 ∧ (b.exchanges false).map MqExchange.ans =
      (b.clients false).got ++ ofType (b.clients false).myAddress b.rep := by
  have hcount : twoMqClients.count .assign ≤ 31998 := by decide
  refine ⟨_, rfl, rfl, ?_⟩
  exact ((@broker_exchanges Bool _ 16384 twoMqClients _ rfl hcount).2.2 false (by decide)).2.2

section Crossed

variable {qbytes : Nat} {data : Nat → Str}

/-- The first `k` clients have an address and are about to send their requests. -/
def registeredBroker (data : Nat → Str) (k : Nat) : Broker Nat :=
  { req := [], rep := [], nextClient := clientAddress k, phase := .receiving, log := []
    clients := fun c => if c < k then ⟨clientAddress c, .ready (data c), [], []⟩
      else ⟨0, .out, [], []⟩ }

def registrations (data : Nat → Str) : Nat → List (BrokerAct Nat)
  | 0 => []
  | k + 1 => registrations data k ++ [.xmit k (data k), .register k, .take, .assign, .address k]

theorem snd_nil {queue : List MsgBuf} {m : MsgBuf} (hnil : queue = []) (hne : m.mtype ≠ 0)
    (hmax : m.mdata.length ≤ ipcMaxMsgSz) (hlen : m.mdata.length ≤ qbytes) (hpos : 0 < qbytes) :
    snd qbytes queue m = some (true, [m]) := by
  rw [hnil, snd, if_neg (by omega), if_pos]
  · rfl
  · exact ⟨by rw [queueBytes, List.map_nil, List.sum_nil, Nat.zero_add]; exact hlen, hpos⟩

theorem run_registration (hq : 4 ≤ qbytes) (k : Nat) :
    runActs (Broker.step qbytes) (registeredBroker data k)
      [.xmit k (data k), .register k, .take, .assign, .address k] =
      some (registeredBroker data (k + 1)) := by
  have hk : (registeredBroker data k).clients k = ⟨0, .out, [], []⟩ := if_neg (Nat.lt_irrefl k)
  have hsndR : snd qbytes [] ⟨1, "R".toList⟩ = some (true, [⟨1, "R".toList⟩]) :=
    snd_nil rfl (by decide) (by decide) (show 1 ≤ qbytes by omega) (by omega)
  have hsndA : snd qbytes [] ⟨2, intBytes (clientAddress k)⟩ =
      some (true, [⟨2, intBytes (clientAddress k)⟩]) :=
    snd_nil rfl (show 2 ≠ 0 by decide) (show 4 ≤ ipcMaxMsgSz by decide) hq (by omega)
  have hclients : Function.update (registeredBroker data k).clients k
      ⟨clientAddress k, .ready (data k), [], []⟩ = (registeredBroker data (k + 1)).clients := by
    funext c
    rw [Function.update_apply]
    by_cases hc : c = k
    · rw [if_pos hc, hc]
      exact (if_pos (Nat.lt_succ_self k)).symm
    · rw [if_neg hc]
      have hlt : c < k ↔ c < k + 1 := by omega
      simp only [registeredBroker, hlt]
  let client (x : Xmit) : Broker Nat := (registeredBroker data k).setClient k ⟨0, x, [], []⟩
  have hclient (x : Xmit) : (client x).clients k = ⟨0, x, [], []⟩ := Broker.setClient_self ..
  have hset (x : Xmit) (y : MsgClient) :
      (client x).setClient k y = (registeredBroker data k).setClient k y :=
    Broker.setClient_setClient ..
  have h₁ : (registeredBroker data k).step qbytes (.xmit k (data k)) =
      some (client (.unregistered (data k))) := by
    rw [Broker.step_xmit (by rw [hk]), hk]
    rfl
  have h₂ : (client (.unregistered (data k))).step qbytes (.register k) =
      some { client (.registering (data k)) with req := [⟨1, "R".toList⟩] } := by
    rw [Broker.step_register (by rw [hclient]) hsndR, hset, hclient]
  let b₃ : Broker Nat := { client (.registering (data k)) with phase := .registering }
  have h₃ : Broker.step qbytes { client (.registering (data k)) with req := [⟨1, "R".toList⟩] }
      .take = some b₃ := Broker.step_take (m := ⟨1, "R".toList⟩) rfl rfl
  let b₄ : Broker Nat := { client (.registering (data k)) with
    rep := [⟨2, intBytes (clientAddress k)⟩], nextClient := bumpClient (clientAddress k) }
  have h₄ : b₃.step qbytes .assign = some b₄ := Broker.step_assign (b := b₃) rfl hsndA
  have h₅ : b₄.step qbytes (.address k) = some (registeredBroker data (k + 1)) := by
    rw [Broker.step_address (b := b₄) (congrArg MsgClient.xmit (hclient _))
      (m := ⟨2, intBytes (clientAddress k)⟩) rfl]
    have hsame : b₄.clients k = ⟨0, .registering (data k), [], []⟩ := hclient _
    dsimp only
    rw [hsame, ofIntBytes_clientAddress]
    have hstate : b₄.setClient k ⟨clientAddress k, .ready (data k), [], []⟩ =
        { registeredBroker data (k + 1) with rep := b₄.rep } := by
      have hupdate : Function.update b₄.clients k ⟨clientAddress k, .ready (data k), [], []⟩ =
          (registeredBroker data (k + 1)).clients := (Function.update_idem ..).trans hclients
      have hnext : b₄.nextClient = clientAddress (k + 1) := bumpClient_clientAddress k
      rw [Broker.setClient, hupdate, hnext]
      rfl
    rw [hstate]
    rfl
  rw [runActs, h₁, Option.bind_some, runActs, h₂, Option.bind_some, runActs, h₃, Option.bind_some,
    runActs, h₄, Option.bind_some, runActs, h₅, Option.bind_some, runActs]

theorem run_registrations (hq : 4 ≤ qbytes) (k : Nat) :
    runActs (Broker.step qbytes) initBroker (registrations data k) =
      some (registeredBroker data k) := by
  induction k with
  | zero =>
    have hinit : registeredBroker data 0 = initBroker := by
      simp only [registeredBroker, Nat.not_lt_zero, if_false]
      rfl
    rw [hinit]
    rfl
  | succ k ih => rw [registrations, runActs_append ih, run_registration hq]

theorem count_registrations (k : Nat) : (registrations data k).count .assign = k := by
  induction k with
  | zero => rfl
  | succ k ih =>
    rw [registrations, List.count_append, ih]
    rfl

/-- Two clients of one address, where the second takes the answer to the first. -/
theorem run_crossed {k : Nat} {ans : Str} (hk : k ≠ 0) (hq : 0 < qbytes)
    (haddr : clientAddress k = clientAddress 0)
    (hdata : ∀ c, (data c).length ≤ ipcMaxMsgSz ∧ (data c).length ≤ qbytes)
    (hans : ans.length ≤ ipcMaxMsgSz ∧ ans.length ≤ qbytes) :
    ∃ b, runActs (Broker.step qbytes) (registeredBroker data (k + 1))
        [.request 0, .take, .answer (some ans), .reply, .request k, .recv k] = some b ∧
      b.log = [⟨(b.clients 0).myAddress, data 0, ans⟩] ∧
      (b.clients 0).sent = [data 0] ∧ (b.clients 0).got = [] ∧
      (b.clients k).sent = [data k] ∧ (b.clients k).got = [ans] := by
  have hne (c : Nat) : clientAddress c ≠ 0 := by
    have := clientAddress_lt c
    omega
  have hsnd (c : Nat) (data : Str) (h : data.length ≤ ipcMaxMsgSz ∧ data.length ≤ qbytes) :
      snd qbytes [] ⟨clientAddress c, data⟩ = some (true, [⟨clientAddress c, data⟩]) :=
    snd_nil rfl (hne c) h.1 h.2 hq
  let b₀ := registeredBroker data (k + 1)
  have hclient (c : Nat) (hc : c < k + 1) :
      b₀.clients c = ⟨clientAddress c, .ready (data c), [], []⟩ := if_pos hc
  let b₁ := b₀.setClient 0 ⟨clientAddress 0, .out, [data 0], []⟩
  have h₁ : b₀.step qbytes (.request 0) =
      some { b₁ with req := [⟨clientAddress 0, data 0⟩] } := by
    have hzero := hclient 0 (Nat.succ_pos k)
    rw [Broker.step_request (by rw [hzero]) (by rw [hzero]; exact hsnd 0 _ (hdata 0)), hzero]
    rfl
  have hone : clientAddress 0 ≠ 1 := by decide
  have h₂ : Broker.step qbytes { b₁ with req := [⟨clientAddress 0, data 0⟩] } .take =
      some { b₁ with phase := .serving (clientAddress 0) (data 0) } := by
    rw [Broker.step_take (m := ⟨clientAddress 0, data 0⟩) rfl rfl, if_neg hone]
    rfl
  have h₃ : Broker.step qbytes { b₁ with phase := .serving (clientAddress 0) (data 0) }
      (.answer (some ans)) =
      some { b₁ with phase := .answering (clientAddress 0) (data 0) ans } :=
    Broker.step_answer rfl
  let b₄ : Broker Nat := { b₁ with
    rep := [⟨clientAddress 0, ans⟩], log := [⟨clientAddress 0, data 0, ans⟩] }
  have h₄ : Broker.step qbytes { b₁ with phase := .answering (clientAddress 0) (data 0) ans }
      .reply = some b₄ :=
    Broker.step_reply (b := { b₁ with phase := .answering (clientAddress 0) (data 0) ans }) rfl
      (hsnd 0 ans hans)
  let b₅ := b₄.setClient k ⟨clientAddress 0, .out, [data k], []⟩
  have h₅ : b₄.step qbytes (.request k) =
      some { b₅ with req := [⟨clientAddress 0, data k⟩] } := by
    have hlast : b₄.clients k = ⟨clientAddress 0, .ready (data k), [], []⟩ :=
      (Broker.setClient_other _ _ hk).trans (haddr ▸ hclient k (Nat.lt_succ_self k))
    rw [Broker.step_request (b := b₄) (by rw [hlast]) (by rw [hlast]; exact hsnd 0 _ (hdata k)),
      hlast]
    rfl
  let b₆ : Broker Nat :=
    { b₅.setClient k ⟨clientAddress 0, .out, [data k], [ans]⟩ with
      req := [⟨clientAddress 0, data k⟩], rep := [] }
  have h₆ : Broker.step qbytes { b₅ with req := [⟨clientAddress 0, data k⟩] } (.recv k) =
      some b₆ := by
    have hlast : b₅.clients k = ⟨clientAddress 0, .out, [data k], []⟩ := Broker.setClient_self ..
    rw [Broker.step_recv (b := { b₅ with req := [⟨clientAddress 0, data k⟩] })
      (by dsimp only; rw [hlast]) (by dsimp only; rw [hlast]; exact hne 0)
      (m := ⟨clientAddress 0, ans⟩) (by dsimp only; rw [hlast]; rfl)]
    dsimp only
    rw [hlast]
    rfl
  refine ⟨b₆, ?_, ?_⟩
  · rw [runActs, h₁, Option.bind_some, runActs, h₂, Option.bind_some, runActs, h₃,
      Option.bind_some, runActs, h₄, Option.bind_some, runActs, h₅, Option.bind_some, runActs, h₆,
      Option.bind_some, runActs]
  · have hlast : b₆.clients k = ⟨clientAddress 0, .out, [data k], [ans]⟩ :=
      Broker.setClient_self ..
    have hfirst : b₆.clients 0 = ⟨clientAddress 0, .out, [data 0], []⟩ :=
      (Broker.setClient_other _ _ hk.symm).trans
        ((Broker.setClient_other _ _ hk.symm).trans (Broker.setClient_self b₀ 0 _))
    rw [hfirst, hlast]
    exact ⟨rfl, rfl, rfl, rfl, rfl⟩

/-- The first registration after the addresses have come round is given the address of the first
client, and can receive the answer to that client's request. -/
theorem broker_exchanges_crossed {x y ans : Str} (hq : 4 ≤ qbytes)
    (hx : x.length ≤ ipcMaxMsgSz ∧ x.length ≤ qbytes)
    (hy : y.length ≤ ipcMaxMsgSz ∧ y.length ≤ qbytes)
    (hans : ans.length ≤ ipcMaxMsgSz ∧ ans.length ≤ qbytes) :
    ∃ as, ∃ b : Broker Nat, runActs (Broker.step qbytes) initBroker as = some b ∧
      as.count .assign = 31999 ∧ b.log = [⟨(b.clients 0).myAddress, x, ans⟩] ∧
      (b.clients 0).sent = [x] ∧ (b.clients 0).got = [] ∧
      (b.clients 31998).sent = [y] ∧ (b.clients 31998).got = [ans] := by
  generalize hk : 31998 = k
  have haddr : clientAddress k = clientAddress 0 := clientAddress_inj.2 (by omega)
  let data : Nat → Str := fun c => if c = 0 then x else y
  have hdata : ∀ c, (data c).length ≤ ipcMaxMsgSz ∧ (data c).length ≤ qbytes := by
    intro c
    dsimp only [data]
    split
    · exact hx
    · exact hy
  obtain ⟨b, hrun, hrest⟩ := run_crossed (by omega) (by omega) haddr hdata hans
  refine ⟨registrations data (k + 1) ++
    [.request 0, .take, .answer (some ans), .reply, .request k, .recv k], b, ?_, ?_, ?_⟩
  · rw [runActs_append (run_registrations hq (k + 1)), hrun]
  · rw [List.count_append, count_registrations, ← hk]
    rfl
  · have hky : data k = y := if_neg (by omega)
    rwa [hky] at hrest

theorem broker_exchanges_crossed_short : ∃ as, ∃ b : Broker Nat,
    runActs (Broker.step 16384) initBroker as = some b ∧ as.count .assign = 31999 ∧
      b.log = [⟨(b.clients 0).myAddress, "a".toList, "c".toList⟩] ∧
      (b.clients 0).sent = ["a".toList] ∧ (b.clients 0).got = [] ∧
      (b.clients 31998).sent = ["b".toList] ∧ (b.clients 31998).got = ["c".toList] :=
  broker_exchanges_crossed (by decide) (by decide) (by decide) (by decide)

end Crossed

end MatrixZht
