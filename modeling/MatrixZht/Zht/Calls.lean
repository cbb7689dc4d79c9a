import Mathlib.Algebra.Order.BigOperators.Group.Finset
import MatrixZht.Zht.Sessions

namespace MatrixZht
open Lib

/-- A message that both `Msg::Snd` and a queue of `qbytes` bytes take. -/
def Fits (qbytes : Nat) (data : Str) : Prop := data.length ≤ ipcMaxMsgSz ∧ data.length ≤ qbytes

instance fitsDecidable (qbytes : Nat) (data : Str) : Decidable (Fits qbytes data) :=
  inferInstanceAs (Decidable (_ ∧ _))

section Allowed

variable {ι : Type}

/-- `MQProxy::sendrecv` does not send before the last reply has come. Messages and answers fit. -/
def Broker.Allowed (qbytes : Nat) (b : Broker ι) : BrokerAct ι → Prop
  | .xmit c data => (b.clients c).sent.length = (b.clients c).got.length ∧ Fits qbytes data
  | .answer ans => ans.all (Fits qbytes ·) ∧ ans.isSome
  | _ => True

instance allowedDecidable (qbytes : Nat) (b : Broker ι) (a : BrokerAct ι) :
    Decidable (b.Allowed qbytes a) :=
  match a with
  | .xmit _ _ => inferInstanceAs (Decidable (_ ∧ _))
  | .answer _ => inferInstanceAs (Decidable (_ ∧ _))
  | .register _ => isTrue trivial
  | .address _ => isTrue trivial
  | .request _ => isTrue trivial
  | .recv _ => isTrue trivial
  | .take => isTrue trivial
  | .assign => isTrue trivial
  | .reply => isTrue trivial

/-- The steps of clients that call `sendrecv` and of a broker that is always answered. -/
def Broker.callStep [DecidableEq ι] (qbytes : Nat) (b : Broker ι) (a : BrokerAct ι) :
    Option (Broker ι) :=
  if b.Allowed qbytes a then b.step qbytes a else none

def BrokerAct.isXmit : BrokerAct ι → Bool
  | .xmit _ _ => true
  | _ => false

theorem Broker.callStep_eq_some [DecidableEq ι] {qbytes : Nat} {b b' : Broker ι} {a : BrokerAct ι}
    (h : b.callStep qbytes a = some b') : b.Allowed qbytes a ∧ b.step qbytes a = some b' := by
  rw [Broker.callStep] at h
  split at h
  · exact ⟨‹_›, h⟩
  · cases h

theorem Broker.callStep_of_step [DecidableEq ι] {qbytes : Nat} {b b' : Broker ι}
    {a : BrokerAct ι} (hallowed : b.Allowed qbytes a) (hstep : b.step qbytes a = some b') :
    (b.callStep qbytes a).isSome := by
  rw [Broker.callStep, if_pos hallowed, hstep]
  rfl

end Allowed

def Xmit.registrations : Xmit → Nat
  | .registering _ => 1
  | _ => 0

@[simp] theorem Xmit.registrations_out : Xmit.out.registrations = 0 := rfl

@[simp] theorem Xmit.registrations_unregistered (data : Str) :
    (Xmit.unregistered data).registrations = 0 := rfl

@[simp] theorem Xmit.registrations_registering (data : Str) :
    (Xmit.registering data).registrations = 1 := rfl

@[simp] theorem Xmit.registrations_ready (data : Str) : (Xmit.ready data).registrations = 0 := rfl

/-- 1 for a client that has an address. -/
def MsgClient.addressed (client : MsgClient) : Nat := if client.myAddress = 0 then 0 else 1

theorem MsgClient.addressed_of_ne {client : MsgClient} (h : client.myAddress ≠ 0) :
    client.addressed = 1 := if_neg h

theorem MsgClient.addressed_of_eq {client : MsgClient} (h : client.myAddress = 0) :
    client.addressed = 0 := if_pos h

def Phase.registrations : Phase → Nat
  | .registering => 1
  | _ => 0

/-- What is left of a call until its request is in the queue, with what the broker does for it. -/
def Xmit.work : Xmit → Nat
  | .out => 0
  | .unregistered _ => 11
  | .registering _ => 6
  | .ready _ => 5

def Phase.work : Phase → Nat
  | .receiving => 0
  | .registering => 2
  | .serving _ _ => 3
  | .answering _ _ _ => 2
  | .exited _ _ => 0

/-- At most one request is not answered, and none while the next one is on its way. -/
def MsgClient.Alternates (client : MsgClient) : Prop :=
  client.sent.length ≤ client.got.length + 1 ∧
    (client.xmit ≠ .out → client.sent.length = client.got.length)

def Xmit.Fits (qbytes : Nat) : Xmit → Prop
  | .out => True
  | .unregistered data => MatrixZht.Fits qbytes data
  | .registering data => MatrixZht.Fits qbytes data
  | .ready data => MatrixZht.Fits qbytes data

def Phase.Fits (qbytes : Nat) : Phase → Prop
  | .answering _ _ ans => MatrixZht.Fits qbytes ans
  | .exited _ _ => False
  | _ => True

section Calls

variable {ι : Type} [Fintype ι] {qbytes n : Nat} {b b' : Broker ι} {a : BrokerAct ι}

/-- The steps that are left before the calls are answered, at most. -/
def Broker.work (b : Broker ι) : Nat :=
  ∑ c, (b.clients c).xmit.work + 4 * b.req.length + b.phase.work + b.rep.length

structure Broker.Calls (qbytes n : Nat) (b : Broker ι) : Prop where
  registrations : ∑ c, (b.clients c).xmit.registrations =
    (ofType 1 b.req).length + b.phase.registrations + (ofType 2 b.rep).length
  issued : n = ∑ c, (b.clients c).addressed + (ofType 2 b.rep).length
  alternate : ∀ c, (b.clients c).Alternates
  fits : ∀ c, (b.clients c).xmit.Fits qbytes
  phaseFits : b.phase.Fits qbytes

theorem initBroker_calls : (initBroker : Broker ι).Calls qbytes 0 where
  registrations := Finset.sum_eq_zero fun _ _ => rfl
  issued := (Finset.sum_eq_zero fun _ _ => rfl).symm
  alternate _ := ⟨Nat.zero_le _, fun _ => rfl⟩
  fits _ := trivial
  phaseFits := trivial

variable [DecidableEq ι]

theorem Broker.sum_setClient (b : Broker ι) (c : ι) (client : MsgClient) (f : MsgClient → Nat) :
    ∑ d, f ((b.setClient c client).clients d) + f (b.clients c) =
      ∑ d, f (b.clients d) + f client := by
  have hoff := sum_add_eq_of_off (f := fun d => f ((b.setClient c client).clients d))
    (g := fun d => f (b.clients d)) c fun d hd => by
      rw [Broker.setClient_other _ _ hd]
  simpa only [Broker.setClient_self] using hoff

/-- Every step other than a new call takes something off the work that is left. -/
theorem Broker.work_lt (ha : a.isXmit = false) (hmove : b.Moves a b') : b'.work < b.work := by
  have hsum := fun c client => b.sum_setClient c client fun client => client.xmit.work
  cases hmove with
  | xmit c data _ => cases ha
  | register c data hx =>
    have h := hsum c { b.clients c with xmit := .registering data }
    rw [hx] at h
    simp only [Broker.work, List.length_append, List.length_singleton, setClient_rep,
      setClient_phase, Xmit.work] at h ⊢
    omega
  | address c data m rep hx hrcv =>
    have h := hsum c { b.clients c with myAddress := ofIntBytes m.mdata, xmit := .ready data }
    have hlen := msgrcv_length hrcv
    rw [hx] at h
    simp only [Broker.work, setClient_req, setClient_phase, Xmit.work] at h ⊢
    omega
  | request c data hx =>
    have h := hsum c { b.clients c with xmit := .out, sent := (b.clients c).sent ++ [data] }
    rw [hx] at h
    simp only [Broker.work, List.length_append, List.length_singleton, setClient_rep,
      setClient_phase, Xmit.work] at h ⊢
    omega
  | refused c data hx _ =>
    have h := hsum c { b.clients c with xmit := .out }
    rw [hx] at h
    simp only [Broker.work, setClient_req, setClient_rep, setClient_phase, Xmit.work] at h ⊢
    omega
  | recv c m rep _ _ hrcv =>
    have h := hsum c { b.clients c with got := (b.clients c).got ++ [m.mdata] }
    have hlen := msgrcv_length hrcv
    simp only [Broker.work, setClient_req, setClient_phase] at h ⊢
    omega
  | takeRegistration data req hphase hreq =>
    simp only [Broker.work, hphase, hreq, Phase.work, List.length_cons]
    omega
  | takeRequest m req hphase hreq _ =>
    simp only [Broker.work, hphase, hreq, Phase.work, List.length_cons]
    omega
  | assign hphase =>
    simp only [Broker.work, hphase, Phase.work, List.length_append, List.length_singleton]
    omega
  | answer t data ans hphase =>
    simp only [Broker.work, hphase, Phase.work]
    omega
  | unanswered t data hphase =>
    simp only [Broker.work, hphase, Phase.work]
    omega
  | reply t data ans hphase =>
    simp only [Broker.work, hphase, Phase.work, List.length_append, List.length_singleton]
    omega
  | unsent t data ans hphase _ =>
    simp only [Broker.work, hphase, Phase.work]
    omega

/-- Steps of one client, which keeps its address: the registrations that are under way change with
those in the queue. -/
theorem Broker.Calls.ofClient (h : b.Calls qbytes n) {c : ι} {client : MsgClient}
    (hclients : b'.clients = (b.setClient c client).clients) (hphase : b'.phase = b.phase)
    (haddress : client.myAddress = (b.clients c).myAddress)
    (hreg : client.xmit.registrations + (ofType 1 b.req).length =
      (b.clients c).xmit.registrations + (ofType 1 b'.req).length)
    (htwo : ofType 2 b'.rep = ofType 2 b.rep) (halternates : client.Alternates)
    (hfits : client.xmit.Fits qbytes) : b'.Calls qbytes n := by
  have hregs := b.sum_setClient c client fun client => client.xmit.registrations
  have hheld := b.sum_setClient c client MsgClient.addressed
  have hold := h.registrations
  have hissued := h.issued
  constructor
  · rw [hclients, hphase, htwo]
    omega
  · rw [MsgClient.addressed, MsgClient.addressed, haddress] at hheld
    rw [hclients, htwo]
    omega
  · rw [hclients]
    exact Broker.forall_setClient (P := fun _ client => client.Alternates) halternates h.alternate
  · rw [hclients]
    exact Broker.forall_setClient (P := fun _ client => client.xmit.Fits qbytes) hfits h.fits
  · rw [hphase]
    exact h.phaseFits

omit [DecidableEq ι] in
theorem Broker.Calls.ofBroker (h : b.Calls qbytes n) (hclients : b'.clients = b.clients)
    (hreg : (ofType 1 b'.req).length + b'.phase.registrations =
      (ofType 1 b.req).length + b.phase.registrations)
    (htwo : ofType 2 b'.rep = ofType 2 b.rep) (hfits : b'.phase.Fits qbytes) :
    b'.Calls qbytes n where
  registrations := by rw [hclients, htwo, hreg, h.registrations]
  issued := by rw [hclients, htwo, ← h.issued]
  alternate := hclients ▸ h.alternate
  fits := hclients ▸ h.fits
  phaseFits := hfits

theorem Broker.Calls.xmit (h : b.Calls qbytes n) {c : ι} {data : Str}
    (hout : (b.clients c).xmit = .out)
    (heq : (b.clients c).sent.length = (b.clients c).got.length)
    (hfit : MatrixZht.Fits qbytes data) :
    Broker.Calls qbytes n (b.setClient c (startXmit (b.clients c) data)) := by
  have hstart := startXmit_eq (b.clients c) data
  have hx : (startXmit (b.clients c) data).xmit = .unregistered data ∨
      (startXmit (b.clients c) data).xmit = .ready data := by
    rw [startXmit]
    split
    · exact Or.inl rfl
    · exact Or.inr rfl
  have hzero : (startXmit (b.clients c) data).xmit.registrations = 0 := by
    rcases hx with hx | hx <;> rw [hx] <;> rfl
  refine h.ofClient rfl rfl hstart.1 ?_ rfl ?_ ?_
  · rw [hzero, hout, Xmit.registrations_out]
    rfl
  · rw [MsgClient.Alternates, hstart.2.1, hstart.2.2.1]
    exact ⟨by omega, fun _ => heq⟩
  · rcases hx with hx | hx <;> rw [hx] <;> exact hfit

theorem Broker.Calls.register (h : b.Calls qbytes n) {c : ι} {data : Str}
    (hx : (b.clients c).xmit = .unregistered data) :
    Broker.Calls qbytes n { b.setClient c { b.clients c with xmit := .registering data } with
      req := b.req ++ [⟨1, "R".toList⟩] } := by
  have ha := h.alternate c
  have hf := h.fits c
  rw [hx] at hf
  refine h.ofClient rfl rfl rfl ?_ rfl ⟨ha.1, fun _ => ha.2 (by simp [hx])⟩ hf
  rw [hx, ofType_concat, if_pos rfl, List.length_append, List.length_singleton,
    Xmit.registrations_registering, Xmit.registrations_unregistered]
  omega

theorem Broker.Calls.address (h : b.Calls qbytes n) (haddr : b.Addresses n) {c : ι} {data : Str}
    {m : MsgBuf} {rep : List MsgBuf} (hx : (b.clients c).xmit = .registering data)
    (hrcv : msgrcv 2 b.rep = some (m, rep)) :
    Broker.Calls qbytes n { b.setClient c
      { b.clients c with myAddress := ofIntBytes m.mdata, xmit := .ready data } with
      rep := rep } := by
  set client : MsgClient :=
    { b.clients c with myAddress := ofIntBytes m.mdata, xmit := .ready data }
  have hregs := b.sum_setClient c client fun client => client.xmit.registrations
  have hheld := b.sum_setClient c client MsgClient.addressed
  obtain ⟨-, hcons, -⟩ := msgrcv_ofType (by decide) hrcv
  obtain ⟨k, -, he, -⟩ := haddr.offered m.mdata (hcons ▸ List.mem_cons_self)
  have hnew : client.myAddress ≠ 0 := by
    have hlt := clientAddress_lt k
    have haddress : ofIntBytes m.mdata = clientAddress k := he ▸ ofIntBytes_clientAddress k
    change ofIntBytes m.mdata ≠ 0
    omega
  have hzero : (b.clients c).myAddress = 0 := by
    have hok := haddr.calling c
    rwa [MsgClient.CallOk, hx] at hok
  have ha := h.alternate c
  have hf := h.fits c
  have hold := h.registrations
  have hissued := h.issued
  rw [hx] at hregs hf
  rw [hcons, List.length_cons] at hold hissued
  rw [MsgClient.addressed_of_eq hzero, MsgClient.addressed_of_ne hnew] at hheld
  have hready : client.xmit.registrations = 0 := rfl
  refine ⟨?_, ?_, ?_, ?_, h.phaseFits⟩
  · simp only [setClient_req, setClient_phase, Xmit.registrations_registering, hready] at hregs ⊢
    omega
  · dsimp only at hheld ⊢
    omega
  · exact Broker.forall_setClient (P := fun _ client => client.Alternates)
      ⟨ha.1, fun _ => ha.2 (by simp [hx])⟩ h.alternate
  · exact Broker.forall_setClient (P := fun _ client => client.xmit.Fits qbytes) hf h.fits

theorem Broker.Calls.request (h : b.Calls qbytes n) (haddr : b.Addresses n) {c : ι} {data : Str}
    (hx : (b.clients c).xmit = .ready data) :
    Broker.Calls qbytes n { b.setClient c
      { b.clients c with xmit := .out, sent := (b.clients c).sent ++ [data] } with
      req := b.req ++ [⟨(b.clients c).myAddress, data⟩] } := by
  have hne : (b.clients c).myAddress ≠ 0 := by
    have hok := haddr.calling c
    rwa [MsgClient.CallOk, hx] at hok
  have hge := haddr.three_le ⟨hne, c, rfl⟩
  have ha := (h.alternate c).2 (by simp [hx])
  refine h.ofClient rfl rfl rfl ?_ rfl ⟨?_, fun hout => absurd rfl hout⟩ trivial
  · rw [ofType_concat_of_ne (show (b.clients c).myAddress ≠ 1 by omega), hx]
    rfl
  · simp only [List.length_append, List.length_singleton]
    omega

theorem Broker.Calls.refused (h : b.Calls qbytes n) {c : ι} {data : Str}
    (hx : (b.clients c).xmit = .ready data) :
    Broker.Calls qbytes n (b.setClient c { b.clients c with xmit := .out }) :=
  h.ofClient rfl rfl rfl (by rw [hx]; rfl) rfl
    ⟨(h.alternate c).1, fun hout => absurd rfl hout⟩ trivial

theorem Broker.Calls.recv (h : b.Calls qbytes n) (haddr : b.Addresses n) {c : ι} {m : MsgBuf}
    {rep : List MsgBuf} (hout : (b.clients c).xmit = .out) (hne : (b.clients c).myAddress ≠ 0)
    (hrcv : msgrcv (b.clients c).myAddress b.rep = some (m, rep)) :
    Broker.Calls qbytes n { b.setClient c
      { b.clients c with got := (b.clients c).got ++ [m.mdata] } with rep := rep } := by
  have hge := haddr.three_le ⟨hne, c, rfl⟩
  obtain ⟨-, -, hother⟩ := msgrcv_ofType hne hrcv
  have ha := (h.alternate c).1
  refine h.ofClient rfl rfl rfl rfl (hother 2 (by omega)).symm ⟨?_, fun hx => absurd hout hx⟩
    (h.fits c)
  simp only [List.length_append, List.length_singleton]
  omega

omit [DecidableEq ι] in
theorem Broker.Calls.assign (h : b.Calls qbytes n) (hphase : b.phase = .registering) :
    Broker.Calls qbytes (n + 1) { b with
      rep := b.rep ++ [⟨2, intBytes b.nextClient⟩]
      phase := .receiving
      nextClient := bumpClient b.nextClient } := by
  have hold := h.registrations
  have hissued := h.issued
  have htwo : (ofType 2 (b.rep ++ [⟨2, intBytes b.nextClient⟩])).length =
      (ofType 2 b.rep).length + 1 := by
    rw [ofType_concat, if_pos rfl, List.length_append, List.length_singleton]
  refine ⟨?_, ?_, h.alternate, h.fits, trivial⟩
  · rw [hphase] at hold
    simp only [Phase.registrations, htwo] at hold ⊢
    omega
  · rw [htwo]
    dsimp only
    omega

omit [DecidableEq ι] in
theorem Broker.Calls.reply (h : b.Calls qbytes n) (haddr : b.Addresses n) (hs : b.Sessions)
    {t : Nat} {data ans : Str} (hphase : b.phase = .answering t data ans) :
    Broker.Calls qbytes n { b with
      rep := b.rep ++ [⟨t, ans⟩], phase := .receiving, log := b.log ++ [⟨t, data, ans⟩] } := by
  have hge := haddr.three_le (hs.owned_of_taken ⟨t, data⟩
    (Broker.mem_taken (by rw [hphase]; exact List.mem_cons_self)))
  refine h.ofBroker rfl (by rw [hphase]; rfl) ?_ trivial
  exact ofType_concat_of_ne (show t ≠ 2 by dsimp only at hge; omega)

omit [DecidableEq ι] in
theorem Broker.Calls.not_unsent (h : b.Calls qbytes n) (haddr : b.Addresses n) (hs : b.Sessions)
    {t : Nat} {data ans : Str} (hphase : b.phase = .answering t data ans) :
    ¬ (t = 0 ∨ ipcMaxMsgSz < ans.length) := by
  have hge := haddr.three_le (hs.owned_of_taken ⟨t, data⟩
    (Broker.mem_taken (by rw [hphase]; exact List.mem_cons_self)))
  have hfit := h.phaseFits
  rw [hphase] at hfit
  have hmax : ans.length ≤ ipcMaxMsgSz := hfit.1
  dsimp only at hge
  omega

theorem Broker.Calls.step (h : b.Calls qbytes n) (haddr : b.Addresses n) (hs : b.Sessions)
    (hallowed : b.Allowed qbytes a) (hmove : b.Moves a b') :
    b'.Calls qbytes (if a = .assign then n + 1 else n) := by
  cases hmove with
  | xmit c data hout =>
    rw [if_neg nofun]
    exact h.xmit hout hallowed.1 hallowed.2
  | register c data hx =>
    rw [if_neg nofun]
    exact h.register hx
  | address c data m rep hx hrcv =>
    rw [if_neg nofun]
    exact h.address haddr hx hrcv
  | request c data hx =>
    rw [if_neg nofun]
    exact h.request haddr hx
  | refused c data hx _ =>
    rw [if_neg nofun]
    exact h.refused hx
  | recv c m rep hout hne hrcv =>
    rw [if_neg nofun]
    exact h.recv haddr hout hne hrcv
  | takeRegistration data req hphase hreq =>
    rw [if_neg nofun]
    refine h.ofBroker rfl ?_ rfl trivial
    rw [hreq, hphase, ofType_cons, if_pos rfl]
    rfl
  | takeRequest m req hphase hreq hm =>
    rw [if_neg nofun]
    refine h.ofBroker rfl ?_ rfl trivial
    rw [hreq, hphase, ofType_cons, if_neg hm]
    rfl
  | assign hphase =>
    rw [if_pos rfl]
    exact h.assign hphase
  | answer t data ans hphase =>
    rw [if_neg nofun]
    have hfit : MatrixZht.Fits qbytes ans := by simpa [Broker.Allowed] using hallowed
    exact h.ofBroker rfl (by rw [hphase]; rfl) rfl hfit
  | unanswered t data hphase => simp [Broker.Allowed] at hallowed
  | reply t data ans hphase =>
    rw [if_neg nofun]
    exact h.reply haddr hs hphase
  | unsent t data ans hphase hbad => exact absurd hbad (h.not_unsent haddr hs hphase)

omit [DecidableEq ι] in
theorem Broker.Calls.out_of_rep (h : b.Calls qbytes n) (hs : b.Sessions) {c : ι}
    (hne : (b.clients c).myAddress ≠ 0) (hrep : ofType (b.clients c).myAddress b.rep ≠ []) :
    (b.clients c).xmit = .out := by
  by_contra hout
  have heq := (h.alternate c).2 hout
  have hasked := congrArg List.length (hs.asked c hne)
  have hanswered := congrArg List.length (hs.answered c hne)
  have hpos := List.length_pos_of_ne_nil hrep
  rw [Broker.arrived, Broker.taken, ofType_append, ofType_append, List.length_append,
    List.length_append] at hasked
  rw [Broker.departed, List.length_append] at hanswered
  rw [b.exchanges_map c MqExchange.request fun _ => rfl, List.length_map] at hasked
  rw [b.exchanges_map c MqExchange.reply fun _ => rfl, List.length_map] at hanswered
  omega

theorem Broker.Calls.exists_step_of_rep (h : b.Calls qbytes n) (hs : b.Sessions)
    (hrep : b.rep ≠ []) : ∃ a : BrokerAct ι, a.isXmit = false ∧ (b.callStep qbytes a).isSome := by
  obtain ⟨m, rep, he⟩ := List.exists_cons_of_ne_nil hrep
  have hmem : m ∈ b.rep := he ▸ List.mem_cons_self
  obtain ⟨m', rep', hrcv⟩ := exists_msgrcv ⟨m, hmem, rfl⟩
  by_cases htwo : m.mtype = 2
  · have hsum : ∑ c, (b.clients c).xmit.registrations ≠ 0 := by
      have hpos : 0 < (ofType 2 b.rep).length :=
        List.length_pos_of_mem (htwo ▸ mdata_mem_ofType hmem)
      rw [h.registrations]
      omega
    obtain ⟨c, -, hc⟩ := Finset.exists_ne_zero_of_sum_ne_zero hsum
    refine ⟨.address c, rfl, ?_⟩
    cases hx : (b.clients c).xmit with
    | registering data =>
      exact Broker.callStep_of_step trivial (Broker.step_address hx (htwo ▸ hrcv))
    | out => rw [hx] at hc; exact absurd rfl hc
    | unregistered data => rw [hx] at hc; exact absurd rfl hc
    | ready data => rw [hx] at hc; exact absurd rfl hc
  · obtain ⟨hne, c, hc⟩ := (hs.repOwned m hmem).resolve_left htwo
    rw [← hc] at hne hrcv
    have hofType : ofType (b.clients c).myAddress b.rep ≠ [] :=
      List.ne_nil_of_mem (hc ▸ mdata_mem_ofType hmem)
    exact ⟨.recv c, rfl, Broker.callStep_of_step trivial
      (Broker.step_recv (h.out_of_rep hs hne hofType) hne hrcv)⟩

theorem Broker.Calls.exists_step_of_idle (h : b.Calls qbytes n) (haddr : b.Addresses n)
    (hs : b.Sessions) (hq : 4 ≤ qbytes) (hrep : b.rep = []) (hphase : b.phase = .receiving)
    (hreq : b.req = []) {c : ι}
    (hc : (b.clients c).xmit ≠ .out ∨ (b.clients c).sent.length ≠ (b.clients c).got.length) :
    ∃ a : BrokerAct ι, a.isXmit = false ∧ (b.callStep qbytes a).isSome := by
  have hfit := h.fits c
  cases hx : (b.clients c).xmit with
  | out =>
    have hne : (b.clients c).myAddress ≠ 0 := by
      intro hzero
      obtain ⟨hsent, hgot⟩ := hs.fresh c hzero
      rw [hsent, hgot, hx] at hc
      simp at hc
    have hasked := congrArg List.length (hs.asked c hne)
    have hanswered := congrArg List.length (hs.answered c hne)
    rw [Broker.arrived, Broker.taken_of_phase hphase, hreq, Phase.taken, List.append_nil,
      List.append_nil, b.exchanges_map c MqExchange.request fun _ => rfl, List.length_map]
      at hasked
    rw [Broker.departed, hrep, b.exchanges_map c MqExchange.reply fun _ => rfl,
      List.length_map, List.length_append] at hanswered
    simp [hx, ofType] at hc hanswered
    omega
  | unregistered data =>
    have hsnd : snd qbytes b.req ⟨1, "R".toList⟩ = some (true, [⟨1, "R".toList⟩]) :=
      snd_nil hreq (by decide) (by decide) (show 1 ≤ qbytes by omega) (by omega)
    exact ⟨.register c, rfl, Broker.callStep_of_step trivial (Broker.step_register hx hsnd)⟩
  | registering data =>
    have hsum := Finset.add_sum_erase Finset.univ (fun c => (b.clients c).xmit.registrations)
      (Finset.mem_univ c)
    have hold := h.registrations
    rw [hreq, hphase, hrep] at hold
    simp only [hx, Xmit.registrations_registering, Phase.registrations, ofType, List.filter_nil,
      List.map_nil, List.length_nil] at hsum hold
    omega
  | ready data =>
    have hne : (b.clients c).myAddress ≠ 0 := by
      have hok := haddr.calling c
      rwa [MsgClient.CallOk, hx] at hok
    rw [hx] at hfit
    have hsnd : snd qbytes b.req ⟨(b.clients c).myAddress, data⟩ =
        some (true, [⟨(b.clients c).myAddress, data⟩]) :=
      snd_nil hreq hne hfit.1 hfit.2 (by omega)
    exact ⟨.request c, rfl, Broker.callStep_of_step trivial (Broker.step_request hx hsnd)⟩

/-- As long as a call is not answered, some party can move on. -/
theorem Broker.Calls.exists_step (h : b.Calls qbytes n) (haddr : b.Addresses n) (hs : b.Sessions)
    (hq : 4 ≤ qbytes) {c : ι}
    (hc : (b.clients c).xmit ≠ .out ∨ (b.clients c).sent.length ≠ (b.clients c).got.length) :
    ∃ a : BrokerAct ι, a.isXmit = false ∧ (b.callStep qbytes a).isSome := by
  by_cases hrep : b.rep ≠ []
  · exact h.exists_step_of_rep hs hrep
  rw [not_not] at hrep
  cases hphase : b.phase with
  | receiving =>
    cases hreq : b.req with
    | cons m req => exact ⟨.take, rfl, Broker.callStep_of_step trivial
        (Broker.step_take (m := m) hphase (by rw [hreq]; rfl))⟩
    | nil => exact h.exists_step_of_idle haddr hs hq hrep hphase hreq hc
  | registering =>
    have hsnd : snd qbytes b.rep ⟨2, intBytes b.nextClient⟩ =
        some (true, [⟨2, intBytes b.nextClient⟩]) :=
      snd_nil hrep (show 2 ≠ 0 by decide) (show 4 ≤ ipcMaxMsgSz by decide) hq (by omega)
    exact ⟨.assign, rfl, Broker.callStep_of_step trivial (Broker.step_assign hphase hsnd)⟩
  | serving t data =>
    have hnil : b.Allowed qbytes (.answer (some [])) := by simp [Broker.Allowed, Fits]
    exact ⟨.answer (some []), rfl, Broker.callStep_of_step hnil (Broker.step_answer hphase)⟩
  | answering t data ans =>
    have hfit := h.phaseFits
    rw [hphase] at hfit
    have howned := hs.owned_of_taken ⟨t, data⟩
      (Broker.mem_taken (by rw [hphase]; exact List.mem_cons_self))
    have hsnd : snd qbytes b.rep ⟨t, ans⟩ = some (true, [⟨t, ans⟩]) :=
      snd_nil hrep howned.1 hfit.1 hfit.2 (by omega)
    exact ⟨.reply, rfl, Broker.callStep_of_step trivial (Broker.step_reply hphase hsnd)⟩
  | exited t data =>
    have hfit := h.phaseFits
    rw [hphase] at hfit
    exact hfit.elim

omit [DecidableEq ι] in
theorem Broker.Calls.lt_of_registering (h : b.Calls qbytes n) (haddr : b.Addresses n)
    (hphase : b.phase = .registering) : n < Fintype.card ι := by
  have hone : ∀ c ∈ Finset.univ,
      (b.clients c).xmit.registrations + (b.clients c).addressed ≤ 1 := by
    intro c _
    have hok := haddr.calling c
    rw [MsgClient.CallOk] at hok
    rw [MsgClient.addressed]
    cases hx : (b.clients c).xmit with
    | registering data =>
      rw [hx] at hok
      rw [if_pos hok, Xmit.registrations_registering]
    | out => rw [Xmit.registrations_out]; split <;> omega
    | unregistered data => rw [Xmit.registrations_unregistered]; split <;> omega
    | ready data => rw [Xmit.registrations_ready]; split <;> omega
  have hsum := Finset.sum_le_sum hone
  rw [Finset.sum_add_distrib, ← Finset.card_eq_sum_ones, Finset.card_univ, h.registrations,
    hphase] at hsum
  have hissued := h.issued
  simp only [Phase.registrations] at hsum
  omega

theorem Broker.run_calls {as : List (BrokerAct ι)} (hcard : Fintype.card ι ≤ 31998)
    (h : runActs (Broker.callStep qbytes) initBroker as = some b) :
    ∃ n, b.Addresses n ∧ b.Sessions ∧ b.Calls qbytes n := by
  refine runActs_invariant (P := fun b : Broker ι =>
    ∃ n, b.Addresses n ∧ b.Sessions ∧ b.Calls qbytes n) ?_ h
    ⟨0, initBroker_addresses, initBroker_sessions, initBroker_calls⟩
  rintro b a b' hstep ⟨n, haddr, hs, hcalls⟩
  obtain ⟨hallowed, hstep⟩ := Broker.callStep_eq_some hstep
  have hmove := Broker.moves_of_step hstep
  have hlt : a = .assign → n < 31998 := by
    rintro rfl
    cases hmove with
    | assign hphase =>
      have hlt := hcalls.lt_of_registering haddr hphase
      omega
  have haddr' := haddr.step hs hlt hmove
  exact ⟨_, haddr', hs.step haddr haddr' hmove, hcalls.step haddr hs hallowed hmove⟩

theorem Broker.work_run {as : List (BrokerAct ι)} (hcalls : ∀ a ∈ as, a.isXmit = false)
    (h : runActs (Broker.callStep qbytes) b as = some b') : as.length + b'.work ≤ b.work := by
  induction as generalizing b with
  | nil =>
    cases h
    rw [List.length_nil, Nat.zero_add]
  | cons a as ih =>
    obtain ⟨b₁, h₁, hrest⟩ := Option.bind_eq_some_iff.1 h
    obtain ⟨ha, has⟩ := List.forall_mem_cons.1 hcalls
    have hlt := Broker.work_lt ha (Broker.moves_of_step (Broker.callStep_eq_some h₁).2)
    have hle := ih has hrest
    rw [List.length_cons]
    omega

/-- When no new call starts, the steps that are left run out, whatever their order, and until then
some party can move. In the end every request has been answered, and its answer received. -/
def Broker.Completes (qbytes : Nat) (b : Broker ι) : Prop :=
  ∃ steps, ∀ (as : List (BrokerAct ι)) (b' : Broker ι), (∀ a ∈ as, a.isXmit = false) →
    runActs (Broker.callStep qbytes) b as = some b' → as.length ≤ steps ∧
      ((∃ a, a.isXmit = false ∧ (b'.callStep qbytes a).isSome) ∨
        ∀ c, (b'.clients c).xmit = .out ∧
          (b'.clients c).sent = (b'.exchanges c).map MqExchange.data ∧
          (b'.clients c).got = (b'.exchanges c).map MqExchange.ans)

/-- Clients that call `sendrecv` never block one another, though both queues are bounded. -/
theorem broker_completes {as : List (BrokerAct ι)} (hcard : Fintype.card ι ≤ 31998)
    (hq : 4 ≤ qbytes) (h : runActs (Broker.callStep qbytes) initBroker as = some b) :
    b.Completes qbytes := by
  refine ⟨b.work, fun as' b' hcalls hrun => ⟨?_, ?_⟩⟩
  · have hle := Broker.work_run hcalls hrun
    omega
  · obtain ⟨n, haddr, hs, hc⟩ := Broker.run_calls hcard (runActs_append h as' ▸ hrun)
    by_cases hstuck : ∃ a : BrokerAct ι, a.isXmit = false ∧ (b'.callStep qbytes a).isSome
    · exact Or.inl hstuck
    · right
      intro c
      have hidle : ¬ ((b'.clients c).xmit ≠ .out ∨
          (b'.clients c).sent.length ≠ (b'.clients c).got.length) :=
        fun hbusy => hstuck (hc.exists_step haddr hs hq hbusy)
      rw [not_or, not_not, not_not] at hidle
      exact ⟨hidle.1, hs.exchanges_eq hidle.2⟩

/-- Two clients in the middle of their first calls. -/
def firstCalls : List (BrokerAct Bool) :=
  [.xmit true "a".toList, .xmit false "b".toList, .register false, .register true, .take, .assign,
    .address true]

theorem broker_completes_two : ∃ b,
    runActs (Broker.callStep 100) initBroker firstCalls = some b ∧ b.Completes 100 := by
  refine ⟨_, rfl, ?_⟩
  exact @broker_completes Bool _ 100 _ _ firstCalls (by decide) (by decide) rfl

end Calls

end MatrixZht
