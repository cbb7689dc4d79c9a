import MatrixZht.Zht.Proxy

namespace MatrixZht
open Lib

namespace SharedProxy

section Invariant

variable {ι : Type}

/-- Thread `i` holds the mutex of the connection `sock`. -/
structure Owns (p : SharedProxy ι) (i : ι) (hashKey : Str) (sock : Nat) (mutex : Bool) : Prop where
  conn : p.connCache hashKey = some sock
  mutex : mutex = true
  owner : p.mutexCache hashKey = some (some i)

def PhaseOk (p : SharedProxy ι) (i : ι) : ProxyPhase → Prop
  | .out => True
  | .routed m _ => m.Whole
  | .inserting m hashKey sock => m.Whole ∧ p.ccMutex = some i ∧ p.connCache hashKey = some sock ∧
    p.mutexCache hashKey = none ∧ (p.socks sock).Free (p.callsOn sock)
  | .connected m hashKey sock =>
    m.Whole ∧ ∀ s ∈ sock, p.connCache hashKey = some s ∧ (p.mutexCache hashKey).isSome
  | .guarding m hashKey sock mutex =>
    m.Whole ∧ (mutex = true → (p.mutexCache hashKey).isSome) ∧
      ∀ s ∈ sock, p.connCache hashKey = some s ∧ mutex = true
  | .sending m hashKey sock mutex todo => m.Whole ∧ p.Owns i hashKey sock mutex ∧
    ((p.socks sock).Asked (p.callsOn sock) m todo ∨
      todo = [] ∧ (p.socks sock).Answered (p.callsOn sock) m fun _ => none)
  | .receiving m hashKey sock mutex bdMap => m.Whole ∧ p.Owns i hashKey sock mutex ∧
    ((p.socks sock).Asked (p.callsOn sock) m [] ∧ bdMap = (fun _ => none) ∨
      (p.socks sock).Answered (p.callsOn sock) m bdMap)

end Invariant

end SharedProxy

/-- The key of the mutex that a thread holds. -/
def ProxyPhase.holds : ProxyPhase → Option Str
  | .sending _ hashKey _ _ _ => some hashKey
  | .receiving _ hashKey _ _ _ => some hashKey
  | _ => none

/-- The connection that has no mutex yet. -/
def ProxyPhase.inserts : ProxyPhase → Option (Str × Nat)
  | .inserting _ hashKey sock => some (hashKey, sock)
  | _ => none

/-- The key of the connection that a thread has to itself. -/
def ProxyPhase.uses : ProxyPhase → Option Str
  | .inserting _ hashKey _ => some hashKey
  | .sending _ hashKey _ _ _ => some hashKey
  | .receiving _ hashKey _ _ _ => some hashKey
  | _ => none

theorem ProxyPhase.inserts_of_holds {phase : ProxyPhase} {hashKey : Str}
    (h : phase.holds = some hashKey) : phase.inserts = none := by
  cases phase with
  | inserting m hashKey sock => cases h
  | _ => rfl

namespace SharedProxy

section Steps

variable {ι : Type} {p p' : SharedProxy ι} {i j : ι} {m : Msg} {hashKey : Str} {sock : Nat}
  {phase : ProxyPhase}

/-- There is one connection for each key, with one mutex as soon as it is inserted, and where no
thread holds it no exchange is under way. -/
structure Ok (p : SharedProxy ι) : Prop where
  keyed : ∀ hashKey, (p.mutexCache hashKey).isSome → (p.connCache hashKey).isSome
  pending : ∀ hashKey sock, p.connCache hashKey = some sock → p.mutexCache hashKey = none →
    ∃ i, (p.threads i).inserts = some (hashKey, sock)
  inserter : ∀ i, p.ccMutex = some i → (p.threads i).inserts.isSome
  fresh : ∀ hashKey sock, p.connCache hashKey = some sock → sock < p.nextSock
  apart : ∀ hashKey hashKey' sock, p.connCache hashKey = some sock →
    p.connCache hashKey' = some sock → hashKey = hashKey'
  phase : ∀ i, p.PhaseOk i (p.threads i)
  free : ∀ hashKey sock, p.connCache hashKey = some sock → p.mutexCache hashKey = some none →
    (p.socks sock).Free (p.callsOn sock)
  owned : ∀ hashKey i, p.mutexCache hashKey = some (some i) → (p.threads i).holds = some hashKey
  unused : ∀ sock, (∀ hashKey, p.connCache hashKey ≠ some sock) →
    p.socks sock = {} ∧ p.callsOn sock = []
  calls : ∀ c ∈ p.calls, c.msg.Whole ∧ p.connCache c.hashKey = some c.sock

theorem Ok.whole (h : p.Ok) : ∀ c ∈ p.callsOn sock, c.msg.Whole :=
  fun c hc => (h.calls c (List.mem_of_mem_filter hc)).1

theorem PhaseOk.of_inserts (h : p.PhaseOk j phase) (hins : phase.inserts = some (hashKey, sock)) :
    p.ccMutex = some j ∧ p.connCache hashKey = some sock ∧ p.mutexCache hashKey = none ∧
      (p.socks sock).Free (p.callsOn sock) := by
  cases phase with
  | inserting m hashKey' sock' =>
    cases hins
    exact h.2
  | _ => cases hins

theorem PhaseOk.of_uses (h : p.PhaseOk j phase) (huses : phase.uses = some hashKey) :
    p.mutexCache hashKey = some (some j) ∨ p.mutexCache hashKey = none ∧ p.ccMutex = some j := by
  cases phase with
  | inserting m hashKey' sock =>
    cases huses
    exact Or.inr ⟨h.2.2.2.1, h.2.1⟩
  | sending m hashKey' sock mutex todo =>
    cases huses
    exact Or.inl h.2.1.owner
  | receiving m hashKey' sock mutex bdMap =>
    cases huses
    exact Or.inl h.2.1.owner
  | _ => cases huses

theorem PhaseOk.frame (h : p.PhaseOk j phase)
    (hconn : ∀ hashKey sock, p.connCache hashKey = some sock → p'.connCache hashKey = some sock)
    (hmutex : ∀ hashKey, (p.mutexCache hashKey).isSome → (p'.mutexCache hashKey).isSome)
    (hcc : p.ccMutex = some j → p'.ccMutex = some j)
    (huses : ∀ hashKey sock, phase.uses = some hashKey → p.connCache hashKey = some sock →
      p'.mutexCache hashKey = p.mutexCache hashKey ∧ p'.socks sock = p.socks sock ∧
        p'.callsOn sock = p.callsOn sock) : p'.PhaseOk j phase := by
  cases phase with
  | out => trivial
  | routed m hashKey => exact h
  | inserting m hashKey sock =>
    obtain ⟨hm, hj, hc, hnone, hfree⟩ := h
    obtain ⟨hmutex, hsock, hcalls⟩ := huses hashKey sock rfl hc
    exact ⟨hm, hcc hj, hconn _ _ hc, hmutex.trans hnone, by rwa [hsock, hcalls]⟩
  | connected m hashKey sock =>
    exact ⟨h.1, fun s hs => ⟨hconn _ _ (h.2 s hs).1, hmutex _ (h.2 s hs).2⟩⟩
  | guarding m hashKey sock mutex =>
    exact ⟨h.1, fun he => hmutex _ (h.2.1 he),
      fun s hs => ⟨hconn _ _ (h.2.2 s hs).1, (h.2.2 s hs).2⟩⟩
  | sending m hashKey sock mutex todo =>
    obtain ⟨hm, ⟨hc, rfl, howner⟩, hk⟩ := h
    obtain ⟨hmutex, hsock, hcalls⟩ := huses hashKey sock rfl hc
    exact ⟨hm, ⟨hconn _ _ hc, rfl, hmutex.trans howner⟩, by rwa [hsock, hcalls]⟩
  | receiving m hashKey sock mutex bdMap =>
    obtain ⟨hm, ⟨hc, rfl, howner⟩, hk⟩ := h
    obtain ⟨hmutex, hsock, hcalls⟩ := huses hashKey sock rfl hc
    exact ⟨hm, ⟨hconn _ _ hc, rfl, hmutex.trans howner⟩, by rwa [hsock, hcalls]⟩

theorem Ok.guarded (h : p.Ok) (hcc : p.ccMutex = none) (hc : p.connCache hashKey = some sock) :
    (p.mutexCache hashKey).isSome := by
  rw [← Option.ne_none_iff_isSome]
  intro hnone
  obtain ⟨j, hj⟩ := h.pending hashKey sock hc hnone
  rw [((h.phase j).of_inserts hj).1] at hcc
  cases hcc

theorem Owns.sock_eq {sock' : Nat} {mutex mutex' : Bool} (h : p.Owns i hashKey sock mutex)
    (h' : p.Owns i hashKey sock' mutex') : sock = sock' :=
  Option.some.inj (h.conn.symm.trans h'.conn)

theorem Owns.owner_eq (hown : p.Owns i hashKey sock true) (j : ι)
    (hj : p.mutexCache hashKey = some (some j)) : j = i := by
  rw [hown.owner] at hj
  cases hj
  rfl

theorem update_owner {hashKey : Str} {x : Option ι} (h : p.mutexCache hashKey = some x) :
    p.mutexCache = Function.update p.mutexCache hashKey (some x) := by
  rw [← h, Function.update_eq_self]

@[simp] theorem setSock_self {k : Sock} : (p.setSock sock k).socks sock = k :=
  Function.update_self ..

theorem callsOn_concat {c : ProxyCall ι} (h : p'.calls = p.calls ++ [c]) (sock : Nat) :
    p'.callsOn sock = p.callsOn sock ++ if c.sock = sock then [c] else [] := by
  rw [callsOn, callsOn, h, List.filter_append]
  by_cases hc : c.sock = sock
  · rw [if_pos hc, List.filter_cons_of_pos (by simpa using hc), List.filter_nil]
  · rw [if_neg hc, List.filter_cons_of_neg (by simpa using hc), List.filter_nil]

theorem ok_init : ({} : SharedProxy ι).Ok where
  keyed := nofun
  pending := nofun
  inserter := nofun
  fresh := nofun
  apart := nofun
  phase _ := trivial
  free := nofun
  owned := nofun
  unused _ _ := ⟨rfl, rfl⟩
  calls := nofun

theorem Ok.owns (h : p.Ok) (hholds : (p.threads i).holds = some hashKey) :
    ∃ sock, p.Owns i hashKey sock true := by
  have hphase := h.phase i
  cases hthread : p.threads i with
  | sending m hashKey' sock mutex todo =>
    rw [hthread] at hphase hholds
    obtain ⟨_, ⟨hc, rfl, howner⟩, _⟩ := hphase
    cases hholds
    exact ⟨sock, hc, rfl, howner⟩
  | receiving m hashKey' sock mutex bdMap =>
    rw [hthread] at hphase hholds
    obtain ⟨_, ⟨hc, rfl, howner⟩, _⟩ := hphase
    cases hholds
    exact ⟨sock, hc, rfl, howner⟩
  | _ =>
    rw [hthread] at hholds
    cases hholds

theorem Ok.uses_eq (h : p.Ok) (howner : p.mutexCache hashKey = some (some i)) :
    ∀ j, (p.threads j).uses = some hashKey → j = i := by
  intro j huses
  rcases (h.phase j).of_uses huses with hj | ⟨hnone, _⟩
  · rw [howner] at hj
    exact (Option.some.inj (Option.some.inj hj)).symm
  · rw [howner] at hnone
    cases hnone

theorem Ok.ccMutex_ne (h : p.Ok) (hins : (p.threads i).inserts = none) : p.ccMutex ≠ some i := by
  intro hcc
  have hsome := h.inserter i hcc
  rw [hins] at hsome
  cases hsome

/-- A connection is at rest, or one thread has it. -/
theorem Ok.free_or_owned (h : p.Ok) (sock : Nat) : (p.socks sock).Free (p.callsOn sock) ∨
    ∃ i hashKey, p.Owns i hashKey sock true ∧ (p.threads i).holds = some hashKey := by
  by_cases hconn : ∃ hashKey, p.connCache hashKey = some sock
  · obtain ⟨hashKey, hc⟩ := hconn
    cases howner : p.mutexCache hashKey with
    | none =>
      obtain ⟨i, hi⟩ := h.pending hashKey sock hc howner
      exact Or.inl ((h.phase i).of_inserts hi).2.2.2
    | some owner =>
      cases owner with
      | none => exact Or.inl (h.free hashKey sock hc howner)
      | some i => exact Or.inr ⟨i, hashKey, ⟨hc, rfl, howner⟩, h.owned hashKey i howner⟩
  · obtain ⟨hunused, hnil⟩ := h.unused sock fun hashKey hc => hconn ⟨hashKey, hc⟩
    rw [hunused, hnil]
    exact Or.inl ⟨rfl, rfl, rfl⟩

variable [DecidableEq ι]

theorem setThread_of_ne (hne : j ≠ i) : (p.setThread i phase).threads j = p.threads j :=
  Function.update_of_ne hne ..

@[simp] theorem setThread_socks : (p.setThread i phase).socks = p.socks := rfl

theorem setThread_self : (p.setThread i phase).threads i = phase := Function.update_self ..

theorem Ok.setThread (h : p.Ok) (hphase : p.PhaseOk i phase)
    (hholds : phase.holds = (p.threads i).holds) (hins : phase.inserts = (p.threads i).inserts) :
    (p.setThread i phase).Ok := by
  -- a property of phases that the new phase shares with the old one
  have hkeep {α : Type} (f : ProxyPhase → α) (hf : f phase = f (p.threads i)) (j : ι) :
      f ((p.setThread i phase).threads j) = f (p.threads j) := by
    by_cases hj : j = i
    · rw [hj, setThread_self, hf]
    · rw [setThread_of_ne hj]
  exact
    { keyed := h.keyed
      pending := by
        intro hashKey sock hc hnone
        obtain ⟨j, hj⟩ := h.pending hashKey sock hc hnone
        exact ⟨j, (hkeep ProxyPhase.inserts hins j).trans hj⟩
      inserter := by
        intro j hj
        rw [hkeep ProxyPhase.inserts hins]
        exact h.inserter j hj
      fresh := h.fresh
      apart := h.apart
      phase := by
        intro j
        by_cases hj : j = i
        · subst hj
          rw [setThread_self]
          exact hphase.frame (fun _ _ => id) (fun _ => id) id fun _ _ _ _ => ⟨rfl, rfl, rfl⟩
        · rw [setThread_of_ne hj]
          exact (h.phase j).frame (fun _ _ => id) (fun _ => id) id fun _ _ _ _ => ⟨rfl, rfl, rfl⟩
      free := h.free
      owned := by
        intro hashKey j howner
        rw [hkeep ProxyPhase.holds hholds]
        exact h.owned hashKey j howner
      unused := h.unused
      calls := h.calls }

theorem Ok.connect (h : p.Ok) (hm : m.Whole) (hrouted : p.threads i = .routed m hashKey)
    (hcc : p.ccMutex = none) (hnone : p.connCache hashKey = none)
    (hins : p'.ccMutex = some i)
    (hconn : p'.connCache = Function.update p.connCache hashKey (some p.nextSock))
    (hmutex : p'.mutexCache = p.mutexCache) (hnext : p'.nextSock = p.nextSock + 1)
    (hsocks : p'.socks = p.socks)
    (hthreads : p'.threads =
      Function.update p.threads i (.inserting m hashKey p.nextSock))
    (hcalls : p'.calls = p.calls) : p'.Ok := by
  have hnew (k : Str) : p.connCache k ≠ some p.nextSock := fun he => lt_irrefl _ (h.fresh _ _ he)
  have hbare : p.mutexCache hashKey = none := by
    rw [← Option.not_isSome_iff_eq_none]
    intro hsome
    have hconn := h.keyed hashKey hsome
    rw [hnone] at hconn
    cases hconn
  have hgrow (k : Str) (sock : Nat) (hc : p.connCache k = some sock) :
      p'.connCache k = some sock := by
    have hk : k ≠ hashKey := by
      intro he
      rw [he, hnone] at hc
      cases hc
    rw [hconn, Function.update_of_ne hk, hc]
  have hcases {k : Str} {sock : Nat} (hc : p'.connCache k = some sock) :
      k = hashKey ∧ sock = p.nextSock ∨ k ≠ hashKey ∧ p.connCache k = some sock := by
    rw [hconn] at hc
    by_cases hk : k = hashKey
    · rw [hk, Function.update_self] at hc
      cases hc
      exact Or.inl ⟨hk, rfl⟩
    · rw [Function.update_of_ne hk] at hc
      exact Or.inr ⟨hk, hc⟩
  have hon (sock : Nat) : p'.callsOn sock = p.callsOn sock := by rw [callsOn, callsOn, hcalls]
  have hself : p'.threads i = .inserting m hashKey p.nextSock := by
    rw [hthreads, Function.update_self]
  exact
    { keyed := by
        intro k hk
        rw [hmutex] at hk
        obtain ⟨sock, hc⟩ := Option.isSome_iff_exists.1 (h.keyed k hk)
        rw [hgrow k sock hc]
        rfl
      pending := by
        intro k sock hc hk
        rw [hmutex] at hk
        rcases hcases hc with ⟨rfl, rfl⟩ | ⟨_, hc⟩
        · exact ⟨i, by rw [hself]; rfl⟩
        · have hsome := h.guarded hcc hc
          rw [hk] at hsome
          cases hsome
      inserter := by
        intro j hj
        rw [hins] at hj
        cases hj
        rw [hself]
        rfl
      fresh := by
        intro k sock hc
        rw [hnext]
        rcases hcases hc with ⟨_, rfl⟩ | ⟨_, hc⟩
        · exact Nat.lt_succ_self _
        · exact Nat.lt_succ_of_lt (h.fresh _ _ hc)
      apart := by
        intro k k' sock hc hc'
        rcases hcases hc with ⟨hk, hsock⟩ | ⟨_, hc⟩
        · rcases hcases hc' with ⟨hk', _⟩ | ⟨_, hc'⟩
          · rw [hk, hk']
          · exact (hnew k' (hsock ▸ hc')).elim
        · rcases hcases hc' with ⟨_, hsock⟩ | ⟨_, hc'⟩
          · exact (hnew k (hsock ▸ hc)).elim
          · exact h.apart _ _ _ hc hc'
      phase := by
        intro j
        by_cases hj : j = i
        · rw [hj, hself]
          obtain ⟨hsock, hnil⟩ := h.unused p.nextSock hnew
          refine ⟨hm, hins, by rw [hconn, Function.update_self], by rw [hmutex, hbare], ?_⟩
          rw [hsocks, hon, hsock, hnil]
          exact ⟨rfl, rfl, rfl⟩
        · rw [hthreads, Function.update_of_ne hj]
          refine (h.phase j).frame hgrow (fun k hk => by rwa [hmutex]) (fun hj' => ?_)
            fun k sock _ _ => ⟨by rw [hmutex], by rw [hsocks], hon sock⟩
          rw [hcc] at hj'
          cases hj'
      free := by
        intro k sock hc hfree
        rw [hmutex] at hfree
        rw [hsocks, hon]
        rcases hcases hc with ⟨rfl, _⟩ | ⟨_, hc⟩
        · rw [hbare] at hfree
          cases hfree
        · exact h.free k sock hc hfree
      owned := by
        intro k j howner
        rw [hmutex] at howner
        have hholds := h.owned k j howner
        rw [hthreads]
        by_cases hj : j = i
        · rw [hj, hrouted] at hholds
          cases hholds
        · rwa [Function.update_of_ne hj]
      unused := by
        intro sock hall
        rw [hsocks, hon]
        exact h.unused sock fun k hc => hall k (hgrow k sock hc)
      calls := by
        intro c hc
        rw [hcalls] at hc
        obtain ⟨hwhole, hc⟩ := h.calls c hc
        exact ⟨hwhole, hgrow _ _ hc⟩ }

/-- The mutex of `hashKey` changes hands, or the exchange on its connection `sock` goes on. It is
thread `i` that does so, or the server for it. -/
theorem Ok.exchange (h : p.Ok) (owner : Option ι) {k : Sock}
    (hc : p.connCache hashKey = some sock)
    (hholds : (p.threads i).holds = none ∨ (p.threads i).holds = some hashKey)
    (hother : ∀ j, (p.threads j).uses = some hashKey → j = i)
    (hins : ∀ c, (p.threads i).inserts = some c → c = (hashKey, sock))
    (hcc : ∀ j, j ≠ i → (p'.ccMutex = some j ↔ p.ccMutex = some j))
    (hstill : p'.ccMutex ≠ some i ∧ phase.inserts = none)
    (hconn : p'.connCache = p.connCache) (hnext : p'.nextSock = p.nextSock)
    (hmutex : p'.mutexCache = Function.update p.mutexCache hashKey (some owner))
    (hsocks : p'.socks = Function.update p.socks sock k)
    (hthreads : p'.threads = Function.update p.threads i phase)
    (hoff : ∀ sock', sock' ≠ sock → p'.callsOn sock' = p.callsOn sock')
    (hcalls : ∀ c ∈ p'.calls, c.msg.Whole ∧ p.connCache c.hashKey = some c.sock)
    (hphase : p'.PhaseOk i phase) (hfree : owner = none → k.Free (p'.callsOn sock))
    (howner : ∀ j, owner = some j → j = i ∧ phase.holds = some hashKey) : p'.Ok where
  keyed := by
    intro k' hk'
    rw [hmutex] at hk'
    rw [hconn]
    by_cases hk : k' = hashKey
    · rw [hk, hc]
      rfl
    · rw [Function.update_of_ne hk] at hk'
      exact h.keyed k' hk'
  pending := by
    intro k' sock' hc' hnone
    rw [hconn] at hc'
    rw [hmutex] at hnone
    have hk : k' ≠ hashKey := by
      intro hk
      rw [hk, Function.update_self] at hnone
      cases hnone
    rw [Function.update_of_ne hk] at hnone
    obtain ⟨j, hj⟩ := h.pending k' sock' hc' hnone
    have hji : j ≠ i := by
      intro he
      rw [he] at hj
      exact hk (congrArg Prod.fst (hins _ hj))
    exact ⟨j, by rw [hthreads, Function.update_of_ne hji, hj]⟩
  inserter := by
    intro j hj
    have hji : j ≠ i := by
      intro he
      exact hstill.1 (he ▸ hj)
    rw [hthreads, Function.update_of_ne hji]
    exact h.inserter j ((hcc j hji).1 hj)
  fresh := by
    rw [hconn, hnext]
    exact h.fresh
  apart := by
    rw [hconn]
    exact h.apart
  phase := by
    intro j
    rw [hthreads]
    by_cases hj : j = i
    · rwa [hj, Function.update_self]
    · rw [Function.update_of_ne hj]
      refine (h.phase j).frame (fun _ _ hc => by rwa [hconn]) (fun k' hk' => ?_) (hcc j hj).2
        fun k' sock' huses hc' => ?_
      · rw [hmutex]
        by_cases hk : k' = hashKey
        · rw [hk, Function.update_self]
          rfl
        · rwa [Function.update_of_ne hk]
      · have hk : k' ≠ hashKey := fun he => hj (hother j (he ▸ huses))
        have hsock : sock' ≠ sock := by
          intro he
          exact hk (h.apart _ _ sock (he ▸ hc') hc)
        exact ⟨by rw [hmutex, Function.update_of_ne hk],
          by rw [hsocks, Function.update_of_ne hsock], hoff sock' hsock⟩
  free := by
    intro k' sock' hc' hnone
    rw [hconn] at hc'
    rw [hmutex] at hnone
    by_cases hk : k' = hashKey
    · rw [hk, Function.update_self] at hnone
      rw [hk, hc] at hc'
      cases hc'
      rw [hsocks, Function.update_self]
      exact hfree (Option.some.inj hnone)
    · rw [Function.update_of_ne hk] at hnone
      have hsock : sock' ≠ sock := by
        intro he
        exact hk (h.apart _ _ sock (he ▸ hc') hc)
      rw [hsocks, Function.update_of_ne hsock, hoff sock' hsock]
      exact h.free k' sock' hc' hnone
  owned := by
    intro k' j hj'
    rw [hmutex] at hj'
    rw [hthreads]
    by_cases hk : k' = hashKey
    · rw [hk, Function.update_self] at hj'
      obtain ⟨rfl, hnew⟩ := howner j (Option.some.inj hj')
      rw [Function.update_self, hk, hnew]
    · rw [Function.update_of_ne hk] at hj'
      have hold := h.owned k' j hj'
      by_cases hj : j = i
      · rw [hj] at hold
        rcases hholds with hnone | hsome
        · rw [hnone] at hold
          cases hold
        · rw [hsome] at hold
          exact (hk (Option.some.inj hold).symm).elim
      · rwa [Function.update_of_ne hj]
  unused := by
    intro sock' hall
    rw [hconn] at hall
    have hsock : sock' ≠ sock := by
      intro he
      exact hall hashKey (he ▸ hc)
    rw [hsocks, Function.update_of_ne hsock, hoff sock' hsock]
    exact h.unused sock' hall
  calls := by
    rw [hconn]
    exact hcalls

theorem Ok.exchange_own (h : p.Ok) (owner : Option ι) {k : Sock}
    (hown : p.Owns i hashKey sock true) (hholds : (p.threads i).holds = some hashKey)
    (hins : phase.inserts = none) (hcc : p'.ccMutex = p.ccMutex)
    (hconn : p'.connCache = p.connCache) (hnext : p'.nextSock = p.nextSock)
    (hmutex : p'.mutexCache = Function.update p.mutexCache hashKey (some owner))
    (hsocks : p'.socks = Function.update p.socks sock k)
    (hthreads : p'.threads = Function.update p.threads i phase)
    (hoff : ∀ sock', sock' ≠ sock → p'.callsOn sock' = p.callsOn sock')
    (hcalls : ∀ c ∈ p'.calls, c.msg.Whole ∧ p.connCache c.hashKey = some c.sock)
    (hphase : p'.PhaseOk i phase) (hfree : owner = none → k.Free (p'.callsOn sock))
    (howner : ∀ j, owner = some j → j = i ∧ phase.holds = some hashKey) : p'.Ok := by
  have hnone := ProxyPhase.inserts_of_holds hholds
  refine h.exchange owner hown.conn (Or.inr hholds) (h.uses_eq hown.owner) (by rw [hnone]; nofun)
    (fun _ _ => by rw [hcc]) ⟨?_, hins⟩ hconn hnext hmutex hsocks hthreads hoff hcalls hphase hfree
    howner
  rw [hcc]
  exact h.ccMutex_ne hnone

theorem Ok.lock (h : p.Ok) (hs : p.lock i = some p') : p'.Ok := by
  have hphase := h.phase i
  unfold SharedProxy.lock at hs
  split at hs
  · next m hashKey sock mutex hguarding =>
    rw [hguarding] at hphase
    obtain ⟨hm, _, hsock⟩ := hphase
    have hins : (p.threads i).inserts = none := by rw [hguarding]; rfl
    rw [Option.ite_none_right_eq_some] at hs
    obtain ⟨hunlocked, hs⟩ := hs
    split at hs
    · cases hs
      exact h.setThread trivial (by rw [hguarding]; rfl) hins.symm
    · next sock =>
      obtain ⟨hc, rfl⟩ := hsock sock rfl
      have hnone := hunlocked rfl
      cases hs
      have hfree := h.free _ _ hc hnone
      refine h.exchange (some i) hc (Or.inl (by rw [hguarding]; rfl)) (fun j hj => ?_)
        (by rw [hins]; nofun) (fun _ _ => Iff.rfl) ⟨h.ccMutex_ne hins, rfl⟩ rfl rfl rfl
        (Function.update_eq_self _ _).symm rfl (fun _ _ => rfl) h.calls
        ⟨hm, ⟨hc, rfl, Function.update_self ..⟩, Or.inl hfree.asked⟩ nofun
        (fun j hj => ⟨(Option.some.inj hj).symm, rfl⟩)
      rcases (h.phase j).of_uses hj with hj | ⟨hj, _⟩
      · rw [hnone] at hj
        cases hj
      · rw [hnone] at hj
        cases hj
  · cases hs

theorem Ok.getSockCached (h : p.Ok) {reachable : Bool}
    (hs : p.getSockCached i reachable = some p') : p'.Ok := by
  have hphase := h.phase i
  unfold SharedProxy.getSockCached at hs
  split at hs
  · next m hashKey hrouted =>
    rw [hrouted] at hphase
    rw [Option.ite_none_right_eq_some] at hs
    obtain ⟨hcc, hs⟩ := hs
    split at hs
    · next sock hc =>
      cases hs
      refine h.setThread ⟨hphase, fun s hs => ?_⟩ (by rw [hrouted]; rfl) (by rw [hrouted]; rfl)
      rw [hc, ← hs]
      exact ⟨rfl, h.guarded hcc hc⟩
    · next hnone =>
      split at hs
      · cases hs
        exact h.connect hphase hrouted hcc hnone rfl rfl rfl rfl rfl rfl rfl
      · cases hs
        exact h.setThread ⟨hphase, nofun⟩ (by rw [hrouted]; rfl) (by rw [hrouted]; rfl)
  · cases hs

theorem Ok.putSockMutex (h : p.Ok) (hs : p.putSockMutex i = some p') : p'.Ok := by
  have hphase := h.phase i
  unfold SharedProxy.putSockMutex at hs
  split at hs
  · next m hashKey sock hinserting =>
    rw [hinserting] at hphase
    obtain ⟨hm, hcc, hc, hnone, hfree⟩ := hphase
    have hput : (p.mutexCache hashKey).isSome = false := by rw [hnone]; rfl
    simp only [hput, Bool.false_eq_true, if_false] at hs
    cases hs
    refine h.exchange none hc (Or.inl (by rw [hinserting]; rfl)) (fun j hj => ?_) (fun c hins => ?_)
      (fun j hj => ?_) ⟨nofun, rfl⟩ rfl rfl rfl (Function.update_eq_self _ _).symm rfl
      (fun _ _ => rfl) h.calls ⟨hm, fun s hs => ?_⟩ (fun _ => hfree) nofun
    · rcases (h.phase j).of_uses hj with hj | ⟨_, hj⟩
      · rw [hnone] at hj
        cases hj
      · rw [hcc] at hj
        exact (Option.some.inj hj).symm
    · rw [hinserting] at hins
      exact (Option.some.inj hins).symm
    · rw [hcc]
      exact iff_of_false nofun fun he => hj (Option.some.inj he).symm
    · cases hs
      have hself : Function.update p.mutexCache hashKey (some none) hashKey = some none :=
        Function.update_self ..
      exact ⟨hc, Option.isSome_of_eq_some hself⟩
  · cases hs

theorem Ok.getSockMutex (h : p.Ok) (hs : p.getSockMutex i = some p') : p'.Ok := by
  have hphase := h.phase i
  unfold SharedProxy.getSockMutex at hs
  split at hs
  · next m hashKey sock hconnected =>
    rw [hconnected] at hphase
    rw [Option.ite_none_right_eq_some] at hs
    cases hs.2
    exact h.setThread ⟨hphase.1, id, fun s hs => hphase.2 s hs⟩ (by rw [hconnected]; rfl)
      (by rw [hconnected]; rfl)
  · cases hs

theorem Ok.send (h : p.Ok) (hs : p.send i = some p') : p'.Ok := by
  have hphase := h.phase i
  unfold SharedProxy.send at hs
  split at hs
  · next m hashKey sock mutex b todo hsending =>
    rw [hsending] at hphase
    obtain ⟨hm, hown, hasked | ⟨hnil, _⟩⟩ := hphase
    · cases hs
      obtain ⟨hc, rfl, howner⟩ := hown
      exact h.exchange_own (some i) ⟨hc, rfl, howner⟩ (by rw [hsending]; rfl) rfl rfl rfl rfl
        (update_owner howner) rfl rfl (fun _ _ => rfl) h.calls
        ⟨hm, ⟨hc, rfl, howner⟩, Or.inl (by rw [setThread_socks, setSock_self]; exact hasked.write)⟩
        nofun (fun j hj => ⟨(Option.some.inj hj).symm, rfl⟩)
    · cases hnil
  · next m hashKey sock mutex hsending =>
    rw [hsending] at hphase
    cases hs
    refine h.setThread ⟨hphase.1, hphase.2.1, ?_⟩ (by rw [hsending]; rfl) (by rw [hsending]; rfl)
    exact hphase.2.2.imp (fun hasked => ⟨hasked, rfl⟩) fun hanswered => hanswered.2
  · cases hs

theorem Ok.recv (h : p.Ok) (hs : p.recv i = some p') : p'.Ok := by
  have hphase := h.phase i
  unfold SharedProxy.recv at hs
  split at hs
  · next m hashKey sock mutex bdMap hreceiving =>
    rw [hreceiving] at hphase
    obtain ⟨hm, ⟨hc, rfl, howner⟩, hexchange⟩ := hphase
    have hown : p.Owns i hashKey sock true := ⟨hc, rfl, howner⟩
    have hholds : (p.threads i).holds = some hashKey := by rw [hreceiving]; rfl
    dsimp only at hs
    split at hs
    · cases hs
    · next b down hdown =>
      have hanswered : (p.socks sock).Answered (p.callsOn sock) m bdMap := by
        apply hexchange.resolve_left
        rintro ⟨hasked, _⟩
        rw [hasked.down] at hdown
        cases hdown
      obtain ⟨bdMap', r, hget, hanswers, hrest⟩ := hanswered.read hdown
      rw [hget, Option.map_some] at hs
      by_cases hnil : down = []
      · rw [if_pos hnil] at hs
        dsimp only at hs
        rw [if_pos rfl] at hs
        cases hs
        have hcalls : ∀ c ∈ p.calls ++ [⟨i, hashKey, sock, m, r⟩],
            c.msg.Whole ∧ p.connCache c.hashKey = some c.sock := by
          intro c hmem
          rcases List.mem_append.1 hmem with hmem | hmem
          · exact h.calls c hmem
          · rw [List.mem_singleton.1 hmem]
            exact ⟨hm, hc⟩
        refine h.exchange_own none hown hholds rfl rfl rfl rfl rfl rfl rfl (fun sock' hne => ?_)
          hcalls trivial (fun _ => ?_) nofun
        · rw [callsOn_concat rfl, if_neg hne.symm, List.append_nil]
          rfl
        · rw [callsOn_concat rfl, if_pos rfl]
          refine ⟨?_, hnil, ?_⟩
          · rw [List.map_append, List.flatMap_append, List.map_singleton, List.flatMap_singleton]
            exact hanswered.up
          · rw [List.map_append]
            exact hanswers
      · rw [if_neg hnil] at hs
        dsimp only at hs
        cases hs
        refine h.exchange_own (some i) hown hholds rfl rfl rfl rfl (update_owner howner) rfl rfl
          (fun _ _ => rfl) h.calls ⟨hm, ⟨hc, rfl, howner⟩, Or.inr ?_⟩ nofun
          (fun j hj => ⟨(Option.some.inj hj).symm, rfl⟩)
        rw [setThread_socks, setSock_self]
        exact hrest hnil
  · cases hs

theorem Ok.answer (h : p.Ok) {reply : Msg} (hreply : reply.Whole)
    (hs : p.answer sock reply = some p') : p'.Ok := by
  obtain ⟨request, hrequest, hs⟩ := Option.bind_eq_some_iff.1 hs
  rw [Option.ite_none_right_eq_some] at hs
  cases hs.2
  rcases h.free_or_owned sock with hfree | ⟨i, hashKey, hown, hholds⟩
  · rw [hfree.requests h.whole] at hrequest
    cases hrequest
  · have hask {m : Msg} {todo : List Blob} (hm : m.Whole)
        (hasked : (p.socks sock).Asked (p.callsOn sock) m todo) :
        todo = [] ∧ request = m.text := by
      rw [hasked.requests h.whole hm] at hrequest
      split at hrequest
      · next hnil => exact ⟨hnil, (Option.some.inj hrequest).symm⟩
      · cases hrequest
    have hagain {m : Msg} {bdMap : BdMap} (hm : m.Whole)
        (hanswered : (p.socks sock).Answered (p.callsOn sock) m bdMap) : False := by
      rw [hanswered.requests h.whole hm] at hrequest
      cases hrequest
    refine h.exchange_own (some i) hown hholds (ProxyPhase.inserts_of_holds hholds) rfl rfl rfl
      (update_owner hown.owner) rfl (Function.update_eq_self _ _).symm (fun _ _ => rfl) h.calls ?_
      nofun fun j hj => ⟨(Option.some.inj hj).symm, hholds⟩
    have hphase := h.phase i
    cases hthread : p.threads i with
    | sending m hashKey' sock' mutex todo =>
      rw [hthread] at hphase hholds
      obtain ⟨hm, hown', hk⟩ := hphase
      cases hholds
      obtain rfl := hown.sock_eq hown'
      rcases hk with hasked | ⟨_, hanswered⟩
      · obtain ⟨rfl, rfl⟩ := hask hm hasked
        refine ⟨hm, ⟨hown'.conn, hown'.mutex, hown'.owner⟩, Or.inr ⟨rfl, ?_⟩⟩
        rw [setSock_self]
        exact hasked.answer hreply
      · exact (hagain hm hanswered).elim
    | receiving m hashKey' sock' mutex bdMap =>
      rw [hthread] at hphase hholds
      obtain ⟨hm, hown', hk⟩ := hphase
      cases hholds
      obtain rfl := hown.sock_eq hown'
      rcases hk with ⟨hasked, rfl⟩ | hanswered
      · obtain ⟨_, rfl⟩ := hask hm hasked
        refine ⟨hm, ⟨hown'.conn, hown'.mutex, hown'.owner⟩, Or.inr ?_⟩
        rw [setSock_self]
        exact hasked.answer hreply
      · exact (hagain hm hanswered).elim
    | _ =>
      rw [hthread] at hholds
      cases hholds

theorem Ok.step {neighborVector : List ConfEntry} {a : ProxyAct ι} (h : p.Ok) (ha : a.Ok)
    (hs : p.step neighborVector a = some p') : p'.Ok := by
  cases a with
  | call i uuid sendbuf =>
    simp only [SharedProxy.step] at hs
    split at hs
    · next hout =>
      obtain ⟨hashKey, _, rfl⟩ := Option.map_eq_some_iff.1 hs
      exact h.setThread ⟨ha.1, ha.2, nul_not_mem_cstr _⟩ (by rw [hout]; rfl) (by rw [hout]; rfl)
    · cases hs
  | getSockCached i reachable => exact h.getSockCached hs
  | putSockMutex i => exact h.putSockMutex hs
  | getSockMutex i => exact h.getSockMutex hs
  | lock i => exact h.lock hs
  | send i => exact h.send hs
  | recv i => exact h.recv hs
  | answer sock reply => exact h.answer ha hs

theorem ok_run {neighborVector : List ConfEntry} {as : List (ProxyAct ι)} (hok : ∀ a ∈ as, a.Ok)
    (h : runActs (SharedProxy.step neighborVector) {} as = some p) : p.Ok :=
  runActs_preserves (fun _ _ _ ha hs hp => Ok.step hp ha hs) hok h ok_init

end Steps

section Exchanged

variable {ι : Type} {p : SharedProxy ι} {m : Msg} {sock : Nat}

/-- On a connection all but the last exchange are over. -/
def Exchanged (p : SharedProxy ι) (sock : Nat) : Prop :=
  ∃ (m : Msg) (written : List Blob) (inflight : List (Str × Str)), written <+: m.blobs ∧
    (p.socks sock).up = ((p.callsOn sock).map ProxyCall.msg).flatMap Msg.blobs ++ written ∧
    inflight.length ≤ 1 ∧
    (p.socks sock).answers = (p.callsOn sock).map ProxyCall.pair ++ inflight

theorem exchanged_of_asked {todo : List Blob}
    (h : (p.socks sock).Asked (p.callsOn sock) m todo) : p.Exchanged sock := by
  obtain ⟨⟨written, hblobs, hup⟩, _, hanswers⟩ := h
  exact ⟨m, written, [], ⟨todo, hblobs.symm⟩, hup, Nat.zero_le 1,
    hanswers.trans (List.append_nil _).symm⟩

theorem exchanged_of_answered {bdMap : BdMap}
    (h : (p.socks sock).Answered (p.callsOn sock) m bdMap) : p.Exchanged sock := by
  obtain ⟨hup, _, r, _, hanswers, _⟩ := h
  exact ⟨m, m.blobs, _, List.prefix_rfl, hup, le_rfl, hanswers⟩

theorem Ok.exchanged (h : p.Ok) (sock : Nat) : p.Exchanged sock := by
  rcases h.free_or_owned sock with hfree | ⟨i, hashKey, hown, hholds⟩
  · exact exchanged_of_asked (hfree.asked (m := ⟨0, []⟩))
  · have hphase := h.phase i
    cases hthread : p.threads i with
    | sending m hashKey' sock' mutex todo =>
      rw [hthread] at hphase hholds
      obtain ⟨_, hown', hk⟩ := hphase
      cases hholds
      obtain rfl := hown.sock_eq hown'
      exact hk.elim exchanged_of_asked fun hanswered => exchanged_of_answered hanswered.2
    | receiving m hashKey' sock' mutex bdMap =>
      rw [hthread] at hphase hholds
      obtain ⟨_, hown', hk⟩ := hphase
      cases hholds
      obtain rfl := hown.sock_eq hown'
      exact hk.elim (fun hasked => exchanged_of_asked hasked.1) exchanged_of_answered
    | _ =>
      rw [hthread] at hholds
      cases hholds

end Exchanged

end SharedProxy

/-- Threads that share a proxy never get one another's replies. There is one connection for each
server, the threads take turns on it, and every call on it returns what the server has answered to
its own request. -/
theorem proxy_exchanges {ι : Type} [DecidableEq ι] {neighborVector : List ConfEntry}
    {as : List (ProxyAct ι)} {p : SharedProxy ι} (hok : ∀ a ∈ as, a.Ok)
    (h : runActs (SharedProxy.step neighborVector) {} as = some p) :
    (∀ hashKey i j, (p.threads i).holds = some hashKey → (p.threads j).holds = some hashKey →
      i = j) ∧
      (∀ c ∈ p.calls, ∀ c' ∈ p.calls, c.hashKey = c'.hashKey ↔ c.sock = c'.sock) ∧
        ∀ sock, p.Exchanged sock := by
  have hp := SharedProxy.ok_run hok h
  refine ⟨fun hashKey i j hi hj => ?_, fun c hc c' hc' => ⟨fun he => ?_, fun he => ?_⟩,
    hp.exchanged⟩
  · obtain ⟨sock, hown⟩ := hp.owns hi
    obtain ⟨sock', hown'⟩ := hp.owns hj
    exact (hown.owner_eq j hown'.owner).symm
  · have hconn := (hp.calls c hc).2
    rw [he, (hp.calls c' hc').2] at hconn
    exact (Option.some.inj hconn).symm
  · exact hp.apart _ _ _ (hp.calls c hc).2 (he ▸ (hp.calls c' hc').2)

instance (m : Msg) : Decidable m.Whole :=
  decidable_of_iff (m.Sendable ∧ m.text ≠ [] ∧ '\x00' ∉ m.text)
    ⟨fun h => ⟨h.1, h.2.1, h.2.2⟩, fun h => ⟨h.sendable, h.text, h.plain⟩⟩

instance proxyActDecidable {ι : Type} (a : ProxyAct ι) : Decidable a.Ok :=
  match a with
  | .call _ _ _ => inferInstanceAs (Decidable (_ ∧ _))
  | .answer _ _ => inferInstanceAs (Decidable (Msg.Whole _))
  | .getSockCached _ _ => isTrue trivial
  | .putSockMutex _ => isTrue trivial
  | .getSockMutex _ => isTrue trivial
  | .lock _ => isTrue trivial
  | .send _ => isTrue trivial
  | .recv _ => isTrue trivial

def oneServer : List ConfEntry := [⟨"h".toList, "50000".toList⟩]

/-- Two threads call the same server. The second waits for the mutex until the first has its
reply, and has written half of its request when the run ends. -/
def sharedRun : List (ProxyAct Bool) :=
  let request (val : Str) : Str := zpackToStr (Cluster.requestPack opcInsert "k".toList val [] 1)
  [.call false 1 (request "a".toList), .call true 2 (request (List.replicate 600 'b')),
    .getSockCached true true, .putSockMutex true, .getSockCached false true, .getSockMutex false,
    .getSockMutex true, .lock false, .send false, .send false, .answer 1 ⟨3, recSucc⟩, .recv false,
    .lock true, .send true]

def sharedProxy : Option (SharedProxy Bool) :=
  runActs (SharedProxy.step oneServer) {} sharedRun

theorem proxy_exchanges_two :
    ∃ p, sharedProxy = some p ∧ p.calls.map (fun c => (c.sock, c.reply)) = [(1, recSucc)] ∧
      p.Exchanged 1 := by
  have hrun : sharedProxy.any (fun p =>
      p.calls.map (fun c => (c.sock, c.reply)) = [(1, recSucc)]) = true := by
    decide +kernel
  obtain ⟨p, hp, hcalls⟩ := (Option.any_eq_true _ _).1 hrun
  exact ⟨p, hp, of_decide_eq_true hcalls, (proxy_exchanges (by decide +kernel) hp).2.2 1⟩

/-- The request of the call that a thread is in. -/
def ProxyPhase.msg : ProxyPhase → Option Msg
  | .out => none
  | .routed m _ => some m
  | .inserting m _ _ => some m
  | .connected m _ _ => some m
  | .guarding m _ _ _ => some m
  | .sending m _ _ _ _ => some m
  | .receiving m _ _ _ _ => some m

/-- The request is one that gets a reply. -/
def ProxyAct.Replied {ι : Type} : ProxyAct ι → Prop
  | .call _ _ sendbuf => MatrixZht.Replied (cstr sendbuf)
  | _ => True

instance proxyActReplied {ι : Type} (a : ProxyAct ι) : Decidable a.Replied :=
  match a with
  | .call _ _ _ => inferInstanceAs (Decidable (_ ∨ _))
  | .answer _ _ => isTrue trivial
  | .getSockCached _ _ => isTrue trivial
  | .putSockMutex _ => isTrue trivial
  | .getSockMutex _ => isTrue trivial
  | .lock _ => isTrue trivial
  | .send _ => isTrue trivial
  | .recv _ => isTrue trivial

namespace SharedProxy

section Progress

variable {ι : Type} [DecidableEq ι] {neighborVector : List ConfEntry} {p p' : SharedProxy ι}
  {as : List (ProxyAct ι)} {a : ProxyAct ι} {i j : ι} {phase : ProxyPhase}

/-- Every call is for a request that gets a reply. -/
def AllReplied (p : SharedProxy ι) : Prop :=
  ∀ i m, (p.threads i).msg = some m → MatrixZht.Replied m.text

theorem AllReplied.update (h : p.AllReplied)
    (hthreads : p'.threads = Function.update p.threads i phase)
    (hmsg : ∀ m, phase.msg = some m → (p.threads i).msg = some m ∨ MatrixZht.Replied m.text) :
    p'.AllReplied := by
  intro j m hm
  rw [hthreads] at hm
  by_cases hj : j = i
  · rw [hj, Function.update_self] at hm
    exact (hmsg m hm).elim (h i m) id
  · rw [Function.update_of_ne hj] at hm
    exact h j m hm

theorem AllReplied.go (i : ι) (phase : ProxyPhase) (h : p.AllReplied)
    (hthreads : p'.threads = Function.update p.threads i phase)
    (hmsg : phase.msg = none ∨ phase.msg = (p.threads i).msg) : p'.AllReplied := by
  refine h.update hthreads fun m hm => Or.inl ?_
  rcases hmsg with hnone | hsome
  · rw [hnone] at hm
    cases hm
  · rw [← hsome, hm]

theorem AllReplied.step (h : p.AllReplied) (ha : a.Replied)
    (hs : p.step neighborVector a = some p') : p'.AllReplied := by
  cases a with
  | call i uuid sendbuf =>
    simp only [SharedProxy.step] at hs
    split at hs
    · obtain ⟨hashKey, _, rfl⟩ := Option.map_eq_some_iff.1 hs
      refine h.update rfl fun m hm => Or.inr ?_
      cases hm
      exact ha
    · cases hs
  | getSockCached i reachable =>
    simp only [SharedProxy.step, getSockCached] at hs
    split at hs
    · next m hashKey hrouted =>
      rw [Option.ite_none_right_eq_some] at hs
      replace hs := hs.2
      split at hs
      · cases hs
        exact h.go i _ rfl (Or.inr (by rw [hrouted]; rfl))
      · split at hs
        · cases hs
          exact h.go i _ rfl (Or.inr (by rw [hrouted]; rfl))
        · cases hs
          exact h.go i _ rfl (Or.inr (by rw [hrouted]; rfl))
    · cases hs
  | putSockMutex i =>
    simp only [SharedProxy.step, putSockMutex] at hs
    split at hs
    · next m hashKey sock hinserting =>
      cases hs
      refine h.go i (.connected m hashKey (some sock)) ?_
        (Or.inr (by rw [hinserting]; rfl))
      split <;> rfl
    · cases hs
  | getSockMutex i =>
    simp only [SharedProxy.step, getSockMutex] at hs
    split at hs
    · next m hashKey sock hconnected =>
      rw [Option.ite_none_right_eq_some] at hs
      cases hs.2
      exact h.go i _ rfl (Or.inr (by rw [hconnected]; rfl))
    · cases hs
  | lock i =>
    simp only [SharedProxy.step, lock] at hs
    split at hs
    · next m hashKey sock mutex hguarding =>
      rw [Option.ite_none_right_eq_some] at hs
      replace hs := hs.2
      split at hs
      · cases hs
        exact h.go i _ rfl (Or.inl rfl)
      · next sock =>
        cases hs
        refine h.go i (.sending m hashKey sock mutex m.blobs) ?_
          (Or.inr (by rw [hguarding]; rfl))
        split <;> rfl
    · cases hs
  | send i =>
    simp only [SharedProxy.step, send] at hs
    split at hs
    · next m hashKey sock mutex b todo hsending =>
      cases hs
      exact h.go i _ rfl (Or.inr (by rw [hsending]; rfl))
    · next m hashKey sock mutex hsending =>
      cases hs
      exact h.go i _ rfl (Or.inr (by rw [hsending]; rfl))
    · cases hs
  | recv i =>
    simp only [SharedProxy.step, recv] at hs
    split at hs
    · next m hashKey sock mutex bdMap hreceiving =>
      split at hs
      · cases hs
      · obtain ⟨⟨bdMap', ready⟩, _, rfl⟩ := Option.map_eq_some_iff.1 hs
        cases ready with
        | none => exact h.go i _ rfl (Or.inr (by rw [hreceiving]; rfl))
        | some bd =>
          refine h.go i .out ?_ (Or.inl rfl)
          cases mutex <;> rfl
    · cases hs
  | answer sock reply =>
    obtain ⟨request, _, hs⟩ := Option.bind_eq_some_iff.1 hs
    rw [Option.ite_none_right_eq_some] at hs
    cases hs.2
    exact h

theorem allReplied_run (hreplied : ∀ a ∈ as, a.Replied)
    (h : runActs (SharedProxy.step neighborVector) {} as = some p) : p.AllReplied :=
  runActs_preserves (fun _ _ _ ha hs hp => AllReplied.step hp ha hs) hreplied h nofun

end Progress

end SharedProxy

/-- Threads that share a proxy never block one another for good: while one is in a call, some thread
can go on or some server can answer. -/
theorem proxy_progress {ι : Type} [DecidableEq ι] {neighborVector : List ConfEntry}
    {as : List (ProxyAct ι)} {p : SharedProxy ι} {i : ι} (hok : ∀ a ∈ as, a.Ok)
    (hreplied : ∀ a ∈ as, a.Replied)
    (h : runActs (SharedProxy.step neighborVector) {} as = some p) (hbusy : p.threads i ≠ .out)
    (reply : Msg) (hreply : reply.Whole) :
    ∃ a, (∀ j uuid sendbuf, a ≠ .call j uuid sendbuf) ∧ a.Ok ∧
      (p.step neighborVector a).isSome := by
  have hp := SharedProxy.ok_run hok h
  have hall := SharedProxy.allReplied_run hreplied h
  -- the owner of a mutex can go on, or the server answers it
  have howner {j : ι} {hashKey : Str} (hholds : (p.threads j).holds = some hashKey) :
      ∃ a, (∀ j uuid sendbuf, a ≠ .call j uuid sendbuf) ∧ a.Ok ∧
        (p.step neighborVector a).isSome := by
    have hphase := hp.phase j
    cases hthread : p.threads j with
    | sending m hashKey' sock mutex todo =>
      refine ⟨.send j, nofun, trivial, ?_⟩
      cases todo <;> simp [SharedProxy.step, SharedProxy.send, hthread]
    | receiving m hashKey' sock mutex bdMap =>
      rw [hthread] at hphase
      obtain ⟨hm, _, ⟨hasked, _⟩ | hanswered⟩ := hphase
      · have hgets := hall j m (by rw [hthread]; rfl)
        refine ⟨.answer sock reply, nofun, hreply, ?_⟩
        simp [SharedProxy.step, SharedProxy.answer, hasked.requests hp.whole hm, hgets]
      · obtain ⟨b, down, hdown⟩ := List.exists_cons_of_ne_nil hanswered.down
        obtain ⟨bdMap', r, hget, _⟩ := hanswered.read hdown
        exact ⟨.recv j, nofun, trivial,
          by simp [SharedProxy.step, SharedProxy.recv, hthread, hdown, hget]⟩
    | _ =>
      rw [hthread] at hholds
      cases hholds
  -- the thread that holds `CC_MUTEX` can go on
  have hinserter {j : ι} (hj : p.ccMutex = some j) :
      ∃ a, (∀ j uuid sendbuf, a ≠ .call j uuid sendbuf) ∧ a.Ok ∧
        (p.step neighborVector a).isSome := by
    have hins := hp.inserter j hj
    cases hthread : p.threads j with
    | inserting m hashKey sock =>
      exact ⟨.putSockMutex j, nofun, trivial,
        by simp [SharedProxy.step, SharedProxy.putSockMutex, hthread]⟩
    | _ =>
      rw [hthread] at hins
      cases hins
  cases hcc : p.ccMutex with
  | some j => exact hinserter hcc
  | none =>
    cases hthread : p.threads i with
    | out => exact absurd hthread hbusy
    | routed m hashKey =>
      refine ⟨.getSockCached i true, nofun, trivial, ?_⟩
      cases hc : p.connCache hashKey <;>
        simp [SharedProxy.step, SharedProxy.getSockCached, hthread, hc, hcc]
    | inserting m hashKey sock =>
      exact ⟨.putSockMutex i, nofun, trivial,
        by simp [SharedProxy.step, SharedProxy.putSockMutex, hthread]⟩
    | connected m hashKey sock =>
      exact ⟨.getSockMutex i, nofun, trivial,
        by simp [SharedProxy.step, SharedProxy.getSockMutex, hthread, hcc]⟩
    | guarding m hashKey sock mutex =>
      by_cases hlocked : ∃ j, p.mutexCache hashKey = some (some j)
      · obtain ⟨j, hj⟩ := hlocked
        exact howner (hp.owned hashKey j hj)
      · have hphase := hp.phase i
        rw [hthread] at hphase
        have hfree : mutex = true → p.mutexCache hashKey = some none := by
          intro he
          obtain ⟨owner, howner⟩ := Option.isSome_iff_exists.1 (hphase.2.1 he)
          cases owner with
          | none => exact howner
          | some j => exact absurd ⟨j, howner⟩ hlocked
        refine ⟨.lock i, nofun, trivial, ?_⟩
        simp only [SharedProxy.step, SharedProxy.lock, hthread, if_pos hfree]
        cases sock <;> rfl
    | sending m hashKey sock mutex todo => exact howner (by rw [hthread]; rfl)
    | receiving m hashKey sock mutex bdMap => exact howner (by rw [hthread]; rfl)

def ProxyPhase.busy : ProxyPhase → Bool
  | .out => false
  | _ => true

theorem proxy_progress_two :
    ∃ p, sharedProxy = some p ∧ ∃ a : ProxyAct Bool, (∀ j uuid sendbuf, a ≠ .call j uuid sendbuf) ∧
      a.Ok ∧ (p.step oneServer a).isSome := by
  have hrun : sharedProxy.any (fun p => (p.threads true).busy) = true := by
    decide +kernel
  obtain ⟨p, hp, hbusy⟩ := (Option.any_eq_true _ _).1 hrun
  have hne : p.threads true ≠ .out := by
    intro hout
    rw [hout] at hbusy
    cases hbusy
  exact ⟨p, hp, proxy_progress (by decide +kernel) (by decide +kernel) hp hne ⟨3, recSucc⟩
    (by decide)⟩

end MatrixZht
