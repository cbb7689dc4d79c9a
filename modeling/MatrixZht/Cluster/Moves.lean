import MatrixZht.Cluster.Scheduler

namespace MatrixZht
open Lib

namespace Sched

variable {config : Config} {id peerId : Str} {store store' : Store} {s s' peer : Sched} {e : Nat}
  {reads : List Str}

theorem accept_spec (h : s.accept config reads = some s') :
    ∃ tasks inbox first rest stream str batch, s.inbox = tasks :: inbox ∧ s.serving = .idle ∧
      reads = first :: rest ∧ batchStream config tasks "client".toList = some stream ∧
      Cut stream (first :: rest) ∧ readRequest first = some (.submit str) ∧
      decodeBatch (recvMul rest str).1 = some batch ∧
      s' = { s with inbox, serving := batch.elim .idle fun b => .enqueue b b.pkgs } := by
  unfold accept at h
  split at h
  · next tasks inbox first rest hinbox hserve =>
    obtain ⟨stream, hstream, h⟩ := Option.bind_eq_some_iff.1 h
    rw [Option.ite_none_right_eq_some] at h
    obtain ⟨hcut, h⟩ := h
    split at h
    · next str hreq =>
      obtain ⟨batch, hbatch, rfl⟩ := Option.map_eq_some_iff.1 h
      refine ⟨tasks, inbox, first, rest, stream, str, batch, hinbox, hserve, rfl, hstream, hcut,
        hreq, hbatch, ?_⟩
      cases batch with
      | none =>
        rw [Option.elim_none, ← hserve]
      | some batch => rfl
    · cases h
  · cases h

theorem enqueue_spec (h : s.enqueue store = some s') :
    (∃ batch, s.serving = .enqueue batch [] ∧
        s' = { s with serving := .count batch .look }) ∨
      ∃ batch pkg todo, s.serving = .enqueue batch (pkg :: todo) ∧
        s' = { s with waitQueue := s.waitQueue ++ pkg, serving := .enqueue batch todo } := by
  unfold enqueue at h
  split at h
  · next batch hserve =>
    cases h
    exact .inl ⟨batch, hserve, rfl⟩
  · next batch pkg todo hserve =>
    rw [Option.ite_none_right_eq_some] at h
    cases h.2
    exact .inr ⟨batch, pkg, todo, hserve, rfl⟩
  · cases h

theorem recvStolen_spec (h : s.recvStolen config reads = some s') :
    ∃ tasks stream batch, s.thief = .batch tasks ∧
      batchStream config tasks "scheduler".toList = some stream ∧ Cut stream reads ∧
      decodeBatch (recvMul reads []).1 = some batch ∧
      s' = { s with thief := batch.elim .idle fun b => .stolen b.pkgs } := by
  unfold recvStolen at h
  split at h
  · next tasks hthief =>
    obtain ⟨stream, hstream, h⟩ := Option.bind_eq_some_iff.1 h
    rw [Option.ite_none_right_eq_some] at h
    obtain ⟨batch, hbatch, rfl⟩ := Option.map_eq_some_iff.1 h.2
    refine ⟨tasks, stream, batch, hthief, hstream, h.1, hbatch, ?_⟩
    cases batch <;> rfl
  · cases h

theorem putStolen_spec (h : s.putStolen = some s') :
    (s.thief = .stolen [] ∧ s' = { s with thief := .idle }) ∨
      ∃ pkg pkgs, s.thief = .stolen (pkg :: pkgs) ∧
        s' = { s with wsQueue := s.wsQueue ++ pkg, thief := .stolen pkgs } := by
  unfold putStolen at h
  split at h
  · next hthief =>
    cases h
    exact .inl ⟨hthief, rfl⟩
  · next pkg pkgs hthief =>
    cases h
    exact .inr ⟨pkg, pkgs, hthief, rfl⟩
  · cases h

theorem popWaiting_spec (h : s.popWaiting = some s') :
    ∃ tm waitQueue, s.check = .idle ∧ s.waitQueue = tm :: waitQueue ∧
      s' = { s with waitQueue, check := .popped tm } := by
  unfold popWaiting at h
  split at h
  · next tm waitQueue hcheck hwait =>
    cases h
    exact ⟨tm, waitQueue, hcheck, hwait, rfl⟩
  · cases h

theorem lookupReady_spec (h : s.lookupReady store = some s') :
    ∃ tm value, s.check = .popped tm ∧ strToValue (store.lookup tm.taskid) = some value ∧
      (value.indegree.getD 0 = 0 ∧ s' = { s with check := .ready tm value } ∨
        s' = { s with check := .notReady tm }) := by
  unfold lookupReady at h
  split at h
  · next tm hcheck =>
    obtain ⟨value, hvalue, rfl⟩ := Option.map_eq_some_iff.1 h
    refine ⟨tm, value, hcheck, hvalue, ?_⟩
    split
    · next hzero => exact .inl ⟨hzero, rfl⟩
    · exact .inr rfl
  · cases h

/-- The task is kept, with the length of its data, until it is put into a queue or sent. -/
theorem processReady_spec (h : s.processReady config id = some s') :
    ∃ tm value tm' flag check, s.check = .ready tm value ∧
      taskReadyProcess config id s.localData value tm = some (tm', flag) ∧
      (check = .toWs tm' ∨ check = .toLocal tm' ∨ ∃ target, check = .pushing tm' target) ∧
      s' = { s with check } := by
  unfold processReady at h
  split at h
  · next tm value hcheck =>
    obtain ⟨⟨tm', flag⟩, hready, rfl⟩ := Option.map_eq_some_iff.1 h
    cases flag with
    | ws => exact ⟨tm, value, tm', .ws, .toWs tm', hcheck, hready, .inl rfl, rfl⟩
    | loc => exact ⟨tm, value, tm', .loc, .toLocal tm', hcheck, hready, .inr (.inl rfl), rfl⟩
    | push target =>
      exact ⟨tm, value, tm', .push target, .pushing tm' target, hcheck, hready,
        .inr (.inr ⟨target, rfl⟩), rfl⟩
  · cases h

theorem putChecked_spec (h : s.putChecked = some s') : ∃ tm,
    (s.check = .notReady tm ∧
        s' = { s with waitQueue := s.waitQueue ++ [tm], check := .idle }) ∨
      (s.check = .toWs tm ∧ s' = { s with wsQueue := s.wsQueue ++ [tm], check := .idle }) ∨
      (s.check = .toLocal tm ∧
        s' = { s with localQueue := s.localQueue ++ [tm], check := .idle }) := by
  unfold putChecked at h
  split at h
  · next tm hcheck =>
    cases h
    exact ⟨tm, .inl ⟨hcheck, rfl⟩⟩
  · next tm hcheck =>
    cases h
    exact ⟨tm, .inr (.inl ⟨hcheck, rfl⟩)⟩
  · next tm hcheck =>
    cases h
    exact ⟨tm, .inr (.inr ⟨hcheck, rfl⟩)⟩
  · cases h

theorem migrateOut_spec {maxSize : Nat} {ks ks' : List Nat}
    (h : s.migrateOut maxSize ks ks' = some s') :
    ∃ vecRemain localQueue vecMigrated rest, s.migrated = [] ∧
      (0 < maxSize ∧ maxSize < s.localQueue.length ∧ ks.length = maxSize ∧
        ks'.length = (toInt32 (s.localQueue.length - maxSize)).toNat) ∧
      popMany ks s.localQueue = some (vecRemain, localQueue) ∧
      popMany ks' localQueue = some (vecMigrated, rest) ∧
      s' = { s with localQueue := rest ++ vecRemain, migrated := vecMigrated } := by
  rw [migrateOut, Option.ite_none_right_eq_some] at h
  obtain ⟨⟨hmigrated, hmove⟩, h⟩ := h
  obtain ⟨⟨vecRemain, localQueue⟩, hremain, h⟩ := Option.bind_eq_some_iff.1 h
  obtain ⟨⟨vecMigrated, rest⟩, htaken, rfl⟩ := Option.map_eq_some_iff.1 h
  exact ⟨vecRemain, localQueue, vecMigrated, rest, hmigrated, hmove, hremain, htaken, rfl⟩

theorem popReady_spec {fromLocal : Bool} {k : Nat} (h : s.popReady config fromLocal k = some s') :
    ∃ tm queue, s.exec.length < config.numCorePerExecutor ∧
      (fromLocal = true ∧ popTop k s.localQueue = some (tm, queue) ∧
          s' = { s with localQueue := queue, exec := s.exec ++ [.popped tm] } ∨
        fromLocal = false ∧ popTop k s.wsQueue = some (tm, queue) ∧
          s' = { s with wsQueue := queue, exec := s.exec ++ [.popped tm] }) := by
  rw [popReady, Option.ite_none_right_eq_some] at h
  obtain ⟨hcore, h⟩ := h
  split at h
  · next hlocal =>
    obtain ⟨⟨tm, queue⟩, hpop, rfl⟩ := Option.map_eq_some_iff.1 h
    exact ⟨tm, queue, hcore, .inl ⟨hlocal, hpop, rfl⟩⟩
  · next hlocal =>
    obtain ⟨⟨tm, queue⟩, hpop, rfl⟩ := Option.map_eq_some_iff.1 h
    exact ⟨tm, queue, hcore, .inr ⟨eq_false_of_ne_true hlocal, hpop, rfl⟩⟩

theorem lookupExec_spec (h : s.lookupExec store e = some s') :
    ∃ tm value, s.exec[e]? = some (.popped tm) ∧
      strToValue (store.lookup tm.taskid) = some value ∧
      s' = { s with exec := s.exec.set e (.fetching tm value 0 []) } := by
  unfold lookupExec at h
  split at h
  · next tm hexec =>
    obtain ⟨value, hvalue, rfl⟩ := Option.map_eq_some_iff.1 h
    exact ⟨tm, value, hexec, hvalue, rfl⟩
  · cases h

theorem fetchLocal_spec (h : s.fetchLocal config id e = some s') :
    ∃ tm value i data parent datasize data', s.exec[e]? = some (.fetching tm value i data) ∧
      value.parents[i]? = some parent ∧ value.datasize[i]? = some datasize ∧
      (datasize ≤ 0 ∧ data' = data ∨
        ∃ dataname dataPiece, 0 < datasize ∧ (parent = id ∨ config.cache) ∧
          value.datanamelist[i]? = some dataname ∧ s.localData dataname = some dataPiece ∧
          data' = data ++ dataPiece) ∧
      s' = { s with exec := s.exec.set e (.fetching tm value (i + 1) data') } := by
  unfold fetchLocal at h
  split at h
  · next tm value i data hexec =>
    split at h
    · next parent datasize hparent hsize =>
      split at h
      · next hle =>
        cases h
        exact ⟨tm, value, i, data, parent, datasize, data, hexec, hparent, hsize, .inl ⟨hle, rfl⟩,
          rfl⟩
      · next hpos =>
        rw [Option.ite_none_right_eq_some] at h
        obtain ⟨hhere, h⟩ := h
        obtain ⟨dataPiece, hdata, rfl⟩ := Option.map_eq_some_iff.1 h
        obtain ⟨dataname, hname, hdata⟩ := Option.bind_eq_some_iff.1 hdata
        exact ⟨tm, value, i, data, parent, datasize, data ++ dataPiece, hexec, hparent, hsize,
          .inr ⟨dataname, dataPiece, not_le.1 hpos, hhere, hname, hdata, rfl⟩, rfl⟩
    · cases h
  · cases h

theorem requireData_spec (h : s.requireData config id e = some s') :
    ∃ tm value i data datasize, s.exec[e]? = some (.fetching tm value i data) ∧
      value.datasize[i]? = some datasize ∧ 0 < datasize ∧
      s' = { s with exec := s.exec.set e (.requiring tm value i data) } := by
  unfold requireData at h
  split at h
  · next tm value i data hexec =>
    split at h
    · next parent datasize dataname hparent hsize hname =>
      rw [Option.ite_none_right_eq_some] at h
      cases h.2
      exact ⟨tm, value, i, data, datasize, hexec, hsize, h.1.1, rfl⟩
    · cases h
  · cases h

theorem fetchRemote_spec (h : s.fetchRemote config peerId e reads peer = some s') :
    ∃ tm value i data dataname mm reply mmData,
      s.exec[e]? = some (.requiring tm value i data) ∧ value.parents[i]? = some peerId ∧
      value.datanamelist[i]? = some dataname ∧
      readRequest (requireText dataname) = some (.requireData mm) ∧
      sendData mm peer.localData = some reply ∧ Cut reply reads ∧
      strToMm (recvBig reads) = some mmData ∧
      s' = { s with
        exec := s.exec.set e (.fetching tm value (i + 1) (data ++ mmData.extrainfo.getD []))
        localData :=
          if config.cache then insertNew s.localData dataname (mmData.extrainfo.getD [])
          else s.localData } := by
  unfold fetchRemote at h
  split at h
  · next tm value i data hexec =>
    split at h
    · next parent dataname hparent hname =>
      rw [Option.ite_none_right_eq_some] at h
      obtain ⟨⟨rfl, _⟩, h⟩ := h
      split at h
      · next mm hreq =>
        obtain ⟨reply, hreply, h⟩ := Option.bind_eq_some_iff.1 h
        rw [Option.ite_none_right_eq_some] at h
        obtain ⟨mmData, hmm, rfl⟩ := Option.map_eq_some_iff.1 h.2
        exact ⟨tm, value, i, data, dataname, mm, reply, mmData, hexec, hparent, hname, hreq,
          hreply, h.1, hmm, rfl⟩
      · cases h
    · cases h
  · cases h

theorem storeResult_spec {result : Str} (h : s.storeResult id e result = some s') :
    ∃ tm value data, s.exec[e]? = some (.fetching tm value value.parents.length data) ∧
      s' =
        { s with
          localData := insertNew s.localData (id ++ tm.taskid) result
          exec := s.exec.set e (.stored tm value (id ++ tm.taskid)) } := by
  unfold storeResult at h
  split at h
  · next tm value i data hexec =>
    rw [Option.ite_none_right_eq_some] at h
    obtain ⟨rfl, h⟩ := h
    cases h
    exact ⟨tm, value, data, hexec, rfl⟩
  · cases h

theorem finish_spec {tm : TaskMsg} (h : s.finish e = some (s', tm)) :
    ∃ value key, s.exec[e]? = some (.stored tm value key) ∧ s' =
      { s with
        completeQueue := s.completeQueue ++ [⟨tm.taskid, key, value.outputsize.getD 0⟩]
        exec := s.exec.eraseIdx e } := by
  unfold finish at h
  split at h
  · next tm' value key hexec =>
    simp only [Option.some.injEq, Prod.mk.injEq] at h
    obtain ⟨rfl, rfl⟩ := h
    exact ⟨value, key, hexec, rfl⟩
  · cases h

theorem popComplete_spec (h : s.popComplete = some s') :
    ∃ cqItem completeQueue, s.notify = .idle ∧ s.completeQueue = cqItem :: completeQueue ∧
      s' = { s with completeQueue, notify := .popped cqItem } := by
  unfold popComplete at h
  split at h
  · next cqItem completeQueue hidle hqueue =>
    cases h
    exact ⟨cqItem, completeQueue, hidle, hqueue, rfl⟩
  · cases h

theorem lookupChildren_spec (h : s.lookupChildren store = some s') :
    ∃ cqItem value, s.notify = .popped cqItem ∧
      strToValue (store.lookup cqItem.taskId) = some value ∧
      s' = { s with notify := .notifying cqItem value.children .look } := by
  unfold lookupChildren at h
  split at h
  · next cqItem hpopped =>
    obtain ⟨value, hvalue, rfl⟩ := Option.map_eq_some_iff.1 h
    exact ⟨cqItem, value, hpopped, hvalue, rfl⟩
  · cases h

theorem notifyChild_spec {landed : List Landing}
    (h : s.notifyChild id store = some (store', s', landed)) :
    (∃ cqItem r, s.notify = .notifying cqItem [] r ∧ store' = store ∧
        s' = { s with notify := .idle } ∧ landed = []) ∨
      ∃ cqItem child todo r r', s.notify = .notifying cqItem (child :: todo) r ∧
        r.step (notifyAttempt id cqItem) child store = some (store', r') ∧
        (r' = none ∧ s' = { s with notify := .notifying cqItem todo .look } ∧
            landed = [⟨child, id, cqItem⟩] ∨
          ∃ next, r' = some next ∧ landed = [] ∧
            s' = { s with notify := .notifying cqItem (child :: todo) next }) := by
  unfold notifyChild at h
  split at h
  · next cqItem r hnotify =>
    cases h
    exact .inl ⟨cqItem, r, hnotify, rfl, rfl, rfl⟩
  · next cqItem child todo r hnotify =>
    obtain ⟨⟨store₁, r'⟩, hstep, he⟩ := Option.map_eq_some_iff.1 h
    cases r' with
    | none =>
      cases he
      exact .inr ⟨cqItem, child, todo, r, none, hnotify, hstep, .inl ⟨rfl, rfl, rfl⟩⟩
    | some next =>
      cases he
      exact .inr ⟨cqItem, child, todo, r, some next, hnotify, hstep, .inr ⟨next, rfl, rfl, rfl⟩⟩
  · cases h

theorem countReceived_spec {counted : List Int}
    (h : s.countReceived store = some (store', s', counted)) :
    ∃ batch r r', s.serving = .count batch r ∧
      r.step (numTaskRecvMore batch.numTask) numTasksRecv store = some (store', r') ∧
      (r' = none ∧ s' = { s with serving := .idle } ∧ counted = [batch.numTask] ∨
        ∃ next, r' = some next ∧ s' = { s with serving := .count batch next } ∧ counted = []) := by
  unfold countReceived at h
  split at h
  · next batch r hserve =>
    obtain ⟨⟨store₁, r'⟩, hstep, he⟩ := Option.map_eq_some_iff.1 h
    cases r' with
    | none =>
      cases he
      exact ⟨batch, r, none, hserve, hstep, .inl ⟨rfl, rfl, rfl⟩⟩
    | some next =>
      cases he
      exact ⟨batch, r, some next, hserve, hstep, .inr ⟨next, rfl, rfl, rfl⟩⟩
  · cases h

end Sched

end MatrixZht
