import MatrixZht.Cluster.Advance

namespace MatrixZht
open Lib

/-- A scheduler that has registered. -/
def Sched.Enrolled (s : Sched) : Prop := s.boot = .waitScheduler ∨ s.boot.listening = true

theorem Sched.Enrolled.not_insert {s : Sched} (h : s.Enrolled) (todo : List (Str × Str)) :
    s.boot ≠ .insert todo := by
  rintro hboot
  rcases h with h | h
  · rw [hboot] at h
    cases h
  · rw [hboot] at h
    cases h

theorem Sched.Enrolled.registered {s : Sched} (h : s.Enrolled) : s.boot.registered = true := by
  rcases h with h | h
  · rw [h]
    rfl
  · cases hboot : s.boot with
    | waitTask => rfl
    | running => rfl
    | _ =>
      rw [hboot] at h
      cases h

/-- A scheduler that has read all its submissions and counted their tasks. -/
structure Sched.Served (s : Sched) : Prop where
  listening : s.boot.listening = true
  inbox : s.inbox = []
  serving : s.serving = .idle

/-- A scheduler that has at most waiting tasks. -/
structure Sched.Drained (s : Sched) : Prop extends s.Served where
  running : s.boot = .running
  localQueue : s.localQueue = []
  wsQueue : s.wsQueue = []
  check : s.check = .idle
  thief : s.thief.tasks = []
  migrated : s.migrated = []
  exec : s.exec = []
  completeQueue : s.completeQueue = []
  notify : s.notify = .idle

namespace State

variable {n m : Nat} {sys : System n m} {st st' : State n m} {i : Fin n}

section Boot

theorem Reached.isSome_counter (h : st.Reached sys) (hsys : sys.Complete)
    (hopen : ∀ i todo, (st.sched i).boot ≠ .insert todo) {p : Str × Str}
    (hp : p ∈ registInserts) : (st.store p.1).isSome := by
  rcases (h.live hsys).created ⟨0, hsys.pos⟩ rfl p hp with hsome | ⟨todo, htodo, _⟩
  · exact hsome
  · exact absurd htodo (hopen _ todo)

end Boot

section Client

variable {c : Fin m}

/-- The cluster can go on to `st'` by steps of client `c` alone. -/
structure ClientAdvance (sys : System n m) (c : Fin m) (st st' : State n m) : Prop where
  leads : Leads (State.step sys) Act.Faultless st st'
  boot : ∀ i, (st'.sched i).boot = (st.sched i).boot
  off : ∀ d, d ≠ c → st'.client d = st.client d

theorem ClientAdvance.trans {st'' : State n m} (h : ClientAdvance sys c st st')
    (h' : ClientAdvance sys c st' st'') : ClientAdvance sys c st st'' where
  leads := h.leads.trans h'.leads
  boot := fun i => (h'.boot i).trans (h.boot i)
  off := fun d hd => (h'.off d hd).trans (h.off d hd)

end Client

section Serve

theorem Advance.listening (h : Advance sys i st st')
    (hboot : (st'.sched i).boot = (st.sched i).boot)
    (hlisten : ∀ j, (st.sched j).boot.listening = true) (j : Fin n) :
    (st'.sched j).boot.listening = true := by
  by_cases hj : j = i
  · rw [hj, hboot, hlisten]
  · rw [h.off j hj, hlisten]

theorem Reached.count_listening (h : st.Reached sys) (hsys : sys.Complete)
    (hlisten : ∀ j, (st.sched j).boot.listening = true) {batch : Batch} {r : Retry}
    (hserve : (st.sched i).serving = .count batch r) :
    ∃ st', Advance sys i st st' ∧ st'.sched i = { st.sched i with serving := .idle } := by
  have hopen (j : Fin n) : ∀ todo, (st.sched j).boot ≠ .insert todo :=
    Sched.Enrolled.not_insert (.inr (hlisten j))
  have hbound := h.isSome_counter hsys hopen (p := (numTasksRecv, "0".toList))
    (by simp [registInserts])
  exact h.count hsys hbound hserve

theorem Reached.serve (h : st.Reached sys) (hsys : sys.Complete)
    (hlisten : ∀ j, (st.sched j).boot.listening = true) : ∃ st' waitQueue,
      Advance sys i st st' ∧ st'.sched i = { st.sched i with waitQueue, serving := .idle } := by
  cases hserve : (st.sched i).serving with
  | idle => exact ⟨st, _, .refl sys i st, by rw [← hserve]⟩
  | enqueue batch todo =>
    obtain ⟨st₁, hadv, hst₁⟩ := h.enqueue hsys hserve
    obtain ⟨st', hadv', hst'⟩ := (h.advance hadv).count_listening hsys
      (hadv.listening (by rw [hst₁]) hlisten) (congrArg Sched.serving hst₁)
    exact ⟨st', _, hadv.trans hadv', by rw [hst', hst₁]⟩
  | count batch r =>
    obtain ⟨st', hadv, hst'⟩ := h.count_listening hsys hlisten hserve
    exact ⟨st', _, hadv, hst'⟩

theorem Reached.received (h : st.Reached sys) (hsys : sys.Complete)
    (hsent : ∀ c, st.client c = .sending []) (hserved : ∀ i, (st.sched i).Served) :
    strToLong (st.store.lookup numTasksRecv) = sys.config.numAllTask := by
  have hcard := (h.sound hsys).conserved.card_submitted
  have hunsent : ∑ c, (sys.client c).unsent (st.client c) = 0 :=
    Finset.sum_eq_zero fun c _ => by rw [hsent]; rfl
  rw [hunsent, h.refused, Multiset.card_zero, List.length_nil] at hcard
  have hdue : ∑ i, (st.sched i).due = 0 :=
    Finset.sum_eq_zero fun i _ => by simp [Sched.due, (hserved i).inbox, (hserved i).serving,
      Serving.due]
  have howing := (h.live hsys).owing
  rw [Owing, hdue, add_zero] at howing
  have hfew := hsys.few
  have hlong : IsLong st.counted.sum := by
    rw [howing]
    unfold IsLong
    omega
  rcases (h.live hsys).booting.recv with ⟨hnone, _⟩ | ⟨hsome, _⟩
  · have hopen (j : Fin n) : ∀ todo, (st.sched j).boot ≠ .insert todo :=
      Sched.Enrolled.not_insert (.inr (hserved j).listening)
    have hbound := h.isSome_counter hsys hopen (p := (numTasksRecv, "0".toList))
      (by simp [registInserts])
    rw [hnone] at hbound
    cases hbound
  · rw [Store.lookup_eq hsome, toInt64_eq hlong, strToLong_numToStr hlong, howing, hsys.all,
      ← Nat.cast_sum]
    omega

end Serve

section Drain

theorem Reached.receive (h : st.Reached sys) (hsys : sys.Complete)
    (hrunning : (st.sched i).boot = .running) : ∃ st' wsQueue thief, Advance sys i st st' ∧
      thief.tasks = [] ∧ st'.sched i = { st.sched i with wsQueue, thief } := by
  have hput {st₁ : State n m} (hrunning : (st₁.sched i).boot = .running)
      {pkgs : List (List TaskMsg)} (hthief : (st₁.sched i).thief = .stolen pkgs) :
      ∃ st' wsQueue thief, Advance sys i st₁ st' ∧
        thief.tasks = [] ∧ st'.sched i = { st₁.sched i with wsQueue, thief } := by
    obtain ⟨st', hadv, hst'⟩ := exists_putStolen hrunning hthief
    exact ⟨st', _, _, hadv, rfl, hst'⟩
  cases hthief : (st.sched i).thief with
  | idle => exact ⟨st, _, .idle, .refl sys i st, rfl, by rw [← hthief]⟩
  | asked j => exact ⟨st, _, .asked j, .refl sys i st, rfl, by rw [← hthief]⟩
  | batch tasks =>
    obtain ⟨reads, s, hs, hs'⟩ :=
      exists_recvStolen hsys.pkg (h.clean hsys) (h.held_lt hsys) hthief
    obtain ⟨st₁, hadv, _, hst₁⟩ := exists_move (a := .recvStolen reads) (fun _ => hrunning) hs
    rcases hs' with rfl | ⟨pkgs, _, rfl⟩
    · exact ⟨st₁, _, .idle, hadv, rfl, hst₁⟩
    · obtain ⟨st', wsQueue, thief, hadv', htasks, hst'⟩ :=
        hput (by rw [hst₁, hrunning]) (congrArg Sched.thief hst₁)
      exact ⟨st', wsQueue, thief, hadv.trans hadv', htasks, by rw [hst', hst₁]⟩
  | stolen pkgs => exact hput hrunning hthief

theorem Reached.settle (h : st.Reached sys) (hsys : sys.Complete)
    (hrunning : (st.sched i).boot = .running) : ∃ st' waitQueue wsQueue, Advance sys i st st' ∧
      waitQueue.length ≤ (st.sched i).waitQueue.length + (st.sched i).check.tasks.length ∧
      st'.sched i = { st.sched i with waitQueue, wsQueue, check := .idle } := by
  have hready {st₁ : State n m} (h : st₁.Reached sys) (hrunning : (st₁.sched i).boot = .running)
      {tm : TaskMsg} {value : Value} (hcheck : (st₁.sched i).check = .ready tm value) :
      ∃ st' wsQueue, Advance sys i st₁ st' ∧
        st'.sched i = { st₁.sched i with wsQueue, check := .idle } := by
    obtain ⟨st', tm', hadv, hst'⟩ := h.put_ready hsys hrunning hcheck
    exact ⟨st', _, hadv, hst'⟩
  cases hcheck : (st.sched i).check with
  | idle => exact ⟨st, _, _, .refl sys i st, Nat.le_add_right _ _, by rw [← hcheck]⟩
  | popped tm =>
    obtain ⟨st₁, value, hadv, _, _, ⟨_, hst₁⟩ | ⟨_, hst₁⟩⟩ := h.look hsys hrunning hcheck
    · obtain ⟨st', wsQueue, hadv', hst'⟩ := hready (h.advance hadv) (by rw [hst₁, hrunning])
        (congrArg Sched.check hst₁)
      exact ⟨st', _, wsQueue, hadv.trans hadv', Nat.le_add_right _ _, by rw [hst', hst₁]⟩
    · have hrunning₁ : (st₁.sched i).boot = .running := by rw [hst₁, hrunning]
      obtain ⟨st', hadv', _, hst'⟩ : ∃ st', Advance sys i st₁ st' ∧ st'.store = st₁.store ∧
          st'.sched i = _ := exists_putBack hrunning₁ (congrArg Sched.check hst₁)
      refine ⟨st', (st.sched i).waitQueue ++ [tm], _, hadv.trans hadv', ?_, by rw [hst', hst₁]⟩
      simp [Check.tasks]
  | notReady tm =>
    obtain ⟨st', hadv, _, hst'⟩ : ∃ st', Advance sys i st st' ∧ st'.store = st.store ∧
        st'.sched i = _ := exists_putBack hrunning hcheck
    refine ⟨st', _, _, hadv, ?_, hst'⟩
    simp [Check.tasks]
  | ready tm value =>
    obtain ⟨st', wsQueue, hadv, hst'⟩ := hready h hrunning hcheck
    exact ⟨st', _, wsQueue, hadv, Nat.le_add_right _ _, hst'⟩
  | toWs tm =>
    obtain ⟨st', hadv, _, hst'⟩ := exists_move (a := .putChecked) (fun _ => hrunning)
      (by rw [Sched.move, Sched.putChecked, hcheck])
    exact ⟨st', _, _, hadv, Nat.le_add_right _ _, hst'⟩
  | _ =>
    have hdataless := ((h.dataless hsys).unrouted i).check
    rw [hcheck] at hdataless
    exact hdataless.elim

theorem Reached.run_cores (h : st.Reached sys) (hsys : sys.Complete)
    (hrunning : (st.sched i).boot = .running) : ∃ st' localData completeQueue,
      Advance sys i st st' ∧
        st'.sched i = { st.sched i with localData, exec := [], completeQueue } := by
  induction hexec : (st.sched i).exec generalizing st with
  | nil => exact ⟨st, _, _, .refl sys i st, by rw [← hexec]⟩
  | cons x rest ih =>
    obtain ⟨st₁, localData, item, hadv, hst₁⟩ := h.run hsys hrunning hexec
    obtain ⟨st', localData', completeQueue, hadv', hst'⟩ := ih (h.advance hadv)
      (by rw [hst₁, hrunning]) (by rw [hst₁])
    exact ⟨st', localData', completeQueue, hadv.trans hadv', by rw [hst', hst₁]⟩

theorem Reached.run_ready (h : st.Reached sys) (hsys : sys.Complete)
    (hrunning : (st.sched i).boot = .running) (hexec : (st.sched i).exec = []) :
    ∃ st' localData completeQueue, Advance sys i st st' ∧
      st'.sched i =
        { st.sched i with wsQueue := [], localData, exec := [], completeQueue } := by
  induction hlen : (st.sched i).wsQueue.length generalizing st with
  | zero =>
    have hnil := List.eq_nil_of_length_eq_zero hlen
    exact ⟨st, _, _, .refl sys i st, by rw [← hnil, ← hexec]⟩
  | succ len ih =>
    have hne : (st.sched i).wsQueue ≠ [] := by
      intro hnil
      rw [hnil] at hlen
      cases hlen
    obtain ⟨st₁, wsQueue, tm, hadv, hlen₁, hst₁⟩ := exists_popReady hsys hrunning hexec hne
    have h₁ := h.advance hadv
    obtain ⟨st₂, localData, item, hadv₂, hst₂⟩ := h₁.run hsys (by rw [hst₁, hrunning])
      (congrArg Sched.exec hst₁)
    obtain ⟨st', localData', completeQueue, hadv', hst'⟩ := ih (h₁.advance hadv₂)
      (by rw [hst₂, hst₁, hrunning]) (by rw [hst₂]) (by rw [hst₂, hst₁]; simp only; omega)
    exact ⟨st', localData', completeQueue, (hadv.trans hadv₂).trans hadv', by rw [hst', hst₂, hst₁]⟩

/-- A scheduler gets through everything but its waiting tasks, whose number does not grow. -/
theorem Reached.drain (h : st.Reached sys) (hsys : sys.Complete)
    (hsent : ∀ c, st.client c = .sending []) (hserved : (st.sched i).Served)
    (hrunning : (st.sched i).boot = .running) : ∃ st', Advance sys i st st' ∧
      (st'.sched i).Drained ∧ (st'.sched i).waitQueue.length ≤
        (st.sched i).waitQueue.length + (st.sched i).check.tasks.length := by
  obtain ⟨st₁, ws₁, thief, hadv₁, hthief, hst₁⟩ := h.receive (i := i) hsys hrunning
  have h₁ := h.advance hadv₁
  have hrunning₁ : (st₁.sched i).boot = .running := by rw [hst₁, hrunning]
  obtain ⟨st₂, waitQueue, ws₂, hadv₂, hlen, hst₂⟩ := h₁.settle hsys hrunning₁
  have h₂ := h₁.advance hadv₂
  have hrunning₂ : (st₂.sched i).boot = .running := by rw [hst₂, hrunning₁]
  obtain ⟨st₃, data₃, complete₃, hadv₃, hst₃⟩ := h₂.run_cores hsys hrunning₂
  have h₃ := h₂.advance hadv₃
  have hrunning₃ : (st₃.sched i).boot = .running := by rw [hst₃, hrunning₂]
  obtain ⟨st₄, data₄, complete₄, hadv₄, hst₄⟩ := h₃.run_ready hsys hrunning₃
    (congrArg Sched.exec hst₃)
  have h₄ := h₃.advance hadv₄
  have hrunning₄ : (st₄.sched i).boot = .running := by rw [hst₄, hrunning₃]
  have hadv := ((hadv₁.trans hadv₂).trans hadv₃).trans hadv₄
  obtain ⟨st', hadv', hst'⟩ := h₄.notify_all hsys hrunning₄
    (fun c => ⟨[], by rw [hadv.client, hsent]⟩)
  have hunrouted := (((h.advance hadv).advance hadv').dataless hsys).unrouted i
  refine ⟨st', hadv.trans hadv', ?_, ?_⟩
  · exact
      { listening := by rw [hst', hst₄, hst₃, hst₂, hst₁]; exact hserved.listening
        inbox := by rw [hst', hst₄, hst₃, hst₂, hst₁]; exact hserved.inbox
        serving := by rw [hst', hst₄, hst₃, hst₂, hst₁]; exact hserved.serving
        running := by rw [hst', hrunning₄]
        localQueue := hunrouted.localQueue
        wsQueue := by rw [hst', hst₄]
        check := by rw [hst', hst₄, hst₃, hst₂]
        thief := by rw [hst', hst₄, hst₃, hst₂, hst₁]; exact hthief
        migrated := hunrouted.migrated
        exec := by rw [hst', hst₄]
        completeQueue := by rw [hst']
        notify := by rw [hst'] }
  · have hwait : (st'.sched i).waitQueue = waitQueue := by rw [hst', hst₄, hst₃, hst₂]
    rw [hwait]
    rwa [hst₁] at hlen

/-- Everybody has done everything that does not need a task to be ready. -/
structure Settled (sys : System n m) (st : State n m) : Prop where
  reached : st.Reached sys
  sent : ∀ c, st.client c = .sending []
  drained : ∀ i, (st.sched i).Drained

theorem Settled.advance (h : st.Settled sys) (hsys : sys.Complete) {tm : TaskMsg} {value : Value}
    (htm : tm ∈ (st.sched i).waitQueue)
    (hvalue : strToValue (st.store.lookup tm.taskid) = some value)
    (hready : value.indegree.getD 0 = 0) : ∃ st', Advance sys i st st' ∧ st'.Settled sys ∧
      (st'.sched i).waitQueue.length < (st.sched i).waitQueue.length := by
  have hi := h.drained i
  obtain ⟨k, hk⟩ := List.mem_iff_getElem?.1 htm
  obtain ⟨st₁, waitQueue, tm', hadv, hlen, hst₁⟩ :=
    h.reached.turn hsys hi.running hi.check hk hvalue hready
  have h₁ := h.reached.advance hadv
  have hserved : (st₁.sched i).Served := by
    rw [hst₁]
    exact ⟨hi.listening, hi.inbox, hi.serving⟩
  obtain ⟨st', hadv', hdrained, hle⟩ := h₁.drain hsys (fun c => by rw [hadv.client, h.sent]) hserved
    (by rw [hst₁, hi.running])
  have hall := hadv.trans hadv'
  refine ⟨st', hall, ⟨h₁.advance hadv', fun c => by rw [hall.client, h.sent], fun j => ?_⟩, ?_⟩
  · by_cases hj : j = i
    · rwa [hj]
    · rw [hall.off j hj]
      exact h.drained j
  · simp only [hst₁, Check.tasks, List.length_nil, Nat.add_zero] at hle
    omega

end Drain

end State

end MatrixZht
