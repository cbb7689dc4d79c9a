import MatrixZht.Cluster.Records

namespace MatrixZht
open Lib

/-- The output of a completed task is kept under the id of the scheduler and its own. -/
structure ItemOk (id : Str) (item : CmpQueueItem) : Prop where
  key : item.key = id ++ item.taskId
  taskId : IsItem item.taskId
  dataSize : IsInt item.dataSize

def ExecOk (id : Str) : Exec → Prop
  | .popped _ => True
  | .fetching tm value _ _ => IsItem tm.taskid ∧ IsInt (value.outputsize.getD 0)
  | .requiring tm value _ _ => IsItem tm.taskid ∧ IsInt (value.outputsize.getD 0)
  | .stored tm value key => ItemOk id ⟨tm.taskid, key, value.outputsize.getD 0⟩

def BootOk : Boot → Prop
  | .insert todo => todo <:+ registInserts
  | .swap r => r.Ok registMore
  | _ => True

/-- The scheduler has been counted. -/
def Boot.registered : Boot → Bool
  | .insert todo => todo.length < registInserts.length
  | .look => false
  | .swap _ => false
  | _ => true

def ServingOk : Serving → Prop
  | .count batch r => r.Ok (numTaskRecvMore batch.numTask)
  | _ => True

section Defs

variable {n m : Nat}

/-- The children that are still to be notified have records. -/
def NotifyOk (sys : System n m) (id : Str) : Notify → Prop
  | .idle => True
  | .popped item => ItemOk id item
  | .notifying item todo r => ItemOk id item ∧
    (∀ child ∈ todo, ∃ c k, sys.HasRecord c k ∧ child = sys.taskId c k) ∧
    r.Ok (notifyAttempt id item)

/-- The loops over records of the ZHT expect what they have read. -/
structure LoopsOk (id : Str) (s : Sched) : Prop where
  boot : BootOk s.boot
  serving : ServingOk s.serving
  notify : ∀ item todo r, s.notify = .notifying item todo r → r.Ok (notifyAttempt id item)

/-- The records that count schedulers and tasks. -/
def counterKeys : List Str := [numSchedulerRegistered, numTasksDone, numTasksRecv]

/-- What the threads of a scheduler hold is fit to be stored. -/
structure WorkerOk (sys : System n m) (i : Fin n) (s : Sched) : Prop where
  boot : BootOk s.boot
  serving : ServingOk s.serving
  exec : ∀ x ∈ s.exec, ExecOk (sys.id i) x
  complete : ∀ item ∈ s.completeQueue, ItemOk (sys.id i) item
  notify : NotifyOk sys (sys.id i) s.notify

/-- A write of a counter or of the status of a scheduler. -/
def System.WritesForeign (sys : System n m) (store store' : Store) : Prop :=
  store' = store ∨ ∃ key text, sys.Foreign key ∧ IsItem key ∧ Inert text ∧
    store' = store.insert key text

/-- What a step of a scheduler can do that is no move. The writes of counters and of its status
satisfy `Writes`. -/
inductive Progress (Writes : Store → Store → Prop) (id : Str) (store : Store) (s : Sched) :
    Effect → Prop where
  | other {store' : Store} {boot : Boot} {serving : Serving} {counted : List Int}
      (hstore : Writes store store') (hboot : BootOk boot) (hserving : ServingOk serving) :
      Progress Writes id store s { store := store', sched := { s with boot, serving }, counted }
  | finish {e : Nat} {tm : TaskMsg} {value : Value} {key : Str}
      (hexec : s.exec[e]? = some (.stored tm value key)) :
      Progress Writes id store s
        { store
          sched :=
            { s with
              completeQueue := s.completeQueue ++ [⟨tm.taskid, key, value.outputsize.getD 0⟩]
              exec := s.exec.eraseIdx e }
          executed := [tm] }
  | popComplete {item : CmpQueueItem} {rest : List CmpQueueItem} (hidle : s.notify = .idle)
      (hqueue : s.completeQueue = item :: rest) :
      Progress Writes id store s
        { store, sched := { s with completeQueue := rest, notify := .popped item } }
  | lookupChildren {item : CmpQueueItem} {value : Value} (hpopped : s.notify = .popped item)
      (hvalue : strToValue (store.lookup item.taskId) = some value) :
      Progress Writes id store s
        { store, sched := { s with notify := .notifying item value.children .look } }
  | leave {item : CmpQueueItem} {r : Retry} (hdone : s.notify = .notifying item [] r) :
      Progress Writes id store s { store, sched := { s with notify := .idle } }
  | retry {item : CmpQueueItem} {child : Str} {todo : List Str} {r r' : Retry}
      (hnotify : s.notify = .notifying item (child :: todo) r)
      (hok : r'.Ok (notifyAttempt id item)) :
      Progress Writes id store s
        { store, sched := { s with notify := .notifying item (child :: todo) r' } }
  | land {item : CmpQueueItem} {child old new : Str} {todo : List Str} {r : Retry}
      (hnotify : s.notify = .notifying item (child :: todo) r) (hold : store child = some old)
      (hnew : notifyAttempt id item old = some new) :
      Progress Writes id store s
        { store := store.insert child new
          sched := { s with notify := .notifying item todo .look }
          landed := [⟨child, id, item⟩] }

/-- A scheduler whose id is a task id does not record its status. -/
def Act.apart (sys : System n m) : Act n m → Prop
  | .sched i (.recordStat _) => sys.Foreign (sys.id i)
  | _ => True

end Defs

section Progress

variable {n m : Nat} {sys : System n m} {i : Fin n} {store store' : Store} {s s' : Sched}

theorem foreign_numSchedulerRegistered : sys.Foreign numSchedulerRegistered :=
  foreign_of_mem (d := 'n') (by decide) (by decide) (by decide)

theorem foreign_numTasksDone : sys.Foreign numTasksDone :=
  foreign_of_mem (d := 'n') (by decide) (by decide) (by decide)

theorem foreign_numTasksRecv : sys.Foreign numTasksRecv :=
  foreign_of_mem (d := 'n') (by decide) (by decide) (by decide)

theorem System.WritesForeign.counter {key : Str} (hkey : key ∈ counterKeys) (n : Int) :
    sys.WritesForeign store (store.insert key (numToStr n)) := by
  refine .inr ⟨key, numToStr n, ?_, ?_, inert_numToStr n, rfl⟩
  · simp only [counterKeys, List.mem_cons, List.not_mem_nil, or_false] at hkey
    rcases hkey with rfl | rfl | rfl
    · exact foreign_numSchedulerRegistered
    · exact foreign_numTasksDone
    · exact foreign_numTasksRecv
  · have hitem : ∀ key ∈ counterKeys, IsItem key := by decide
    exact hitem key hkey

theorem registInserts_counter {p : Str × Str} (hp : p ∈ registInserts) :
    p.1 ∈ counterKeys ∧ ∃ n, p.2 = numToStr n := by
  simp only [registInserts, List.mem_cons, List.not_mem_nil, or_false] at hp
  rcases hp with rfl | rfl | rfl
  · exact ⟨by decide, 1, rfl⟩
  · exact ⟨by decide, 0, rfl⟩
  · exact ⟨by decide, 0, rfl⟩

theorem bootOk_start (i : Nat) : BootOk (Boot.start i) := by
  unfold Boot.start
  split
  · exact List.suffix_refl _
  · trivial

theorem Boot.step_cases {numScheduler : Nat} {numAllTask : Int} {boot boot' : Boot}
    (hok : BootOk boot) (h : boot.step numScheduler numAllTask store = some (store', boot')) :
    (∃ p todo, boot = .insert (p :: todo) ∧ store' = store.insert p.1 p.2 ∧
        boot' = .insert todo) ∨
      (∃ r old, boot = .swap r ∧ store numSchedulerRegistered = some old ∧
        store' = store.insert numSchedulerRegistered (numToStr (toInt32 (strToInt old + 1))) ∧
        boot' = .waitScheduler) ∨
      (store' = store ∧ boot'.registered = boot.registered ∧ BootOk boot' ∧
        ∀ todo, boot' ≠ .insert todo) := by
  cases boot with
  | insert todo =>
    cases todo with
    | nil =>
      cases h
      exact .inr (.inr ⟨rfl, rfl, trivial, nofun⟩)
    | cons p todo =>
      cases h
      exact .inl ⟨p, todo, rfl, rfl, rfl⟩
  | look =>
    simp only [Boot.step] at h
    split at h
    · cases h
      exact .inr (.inr ⟨rfl, rfl, trivial, nofun⟩)
    · cases h
      exact .inr (.inr ⟨rfl, rfl, rfl, nofun⟩)
  | swap r =>
    obtain ⟨⟨store₁, r'⟩, hr, he⟩ := Option.map_eq_some_iff.1 h
    rcases Retry.step_cases hok hr with
      ⟨old, new, hold, hnew, rfl, rfl⟩ | ⟨next, rfl, rfl, hnext⟩
    · cases hnew
      cases he
      exact .inr (.inl ⟨r, old, rfl, hold, rfl, rfl⟩)
    · cases he
      exact .inr (.inr ⟨rfl, rfl, hnext, nofun⟩)
  | waitScheduler =>
    rw [Boot.step, Option.ite_none_right_eq_some] at h
    cases h.2
    exact .inr (.inr ⟨rfl, rfl, trivial, nofun⟩)
  | waitTask =>
    rw [Boot.step, Option.ite_none_right_eq_some] at h
    cases h.2
    exact .inr (.inr ⟨rfl, rfl, trivial, nofun⟩)
  | running => cases h

theorem writes_boot {Writes : Store → Store → Prop} {numScheduler : Nat} {numAllTask : Int}
    {boot boot' : Boot} (hnone : Writes store store)
    (hcounter : ∀ key ∈ counterKeys, ∀ n, Writes store (store.insert key (numToStr n)))
    (hok : BootOk boot) (h : boot.step numScheduler numAllTask store = some (store', boot')) :
    Writes store store' ∧ BootOk boot' := by
  rcases Boot.step_cases hok h with
    ⟨p, todo, rfl, rfl, rfl⟩ | ⟨r, old, rfl, _, rfl, rfl⟩ | ⟨rfl, _, hboot, _⟩
  · obtain ⟨hkey, n, hn⟩ := registInserts_counter (hok.mem List.mem_cons_self)
    exact ⟨hn ▸ hcounter p.1 hkey n, (List.suffix_cons p todo).trans hok⟩
  · exact ⟨hcounter _ (by decide) _, trivial⟩
  · exact ⟨hnone, hboot⟩

theorem countReceived_cases {counted : List Int} (hok : ServingOk s.serving)
    (h : s.countReceived store = some (store', s', counted)) :
    ∃ batch r, s.serving = .count batch r ∧
      ((∃ old, store numTasksRecv = some old ∧
          store' = store.insert numTasksRecv
            (numToStr (toInt64 (strToLong old + batch.numTask))) ∧
          s' = { s with serving := .idle } ∧ counted = [batch.numTask]) ∨
        ∃ next, store' = store ∧ s' = { s with serving := .count batch next } ∧ counted = [] ∧
          next.Ok (numTaskRecvMore batch.numTask)) := by
  obtain ⟨batch, r, r', hserve, hr, hr'⟩ := Sched.countReceived_spec h
  rw [hserve] at hok
  refine ⟨batch, r, hserve, ?_⟩
  rcases Retry.step_cases hok hr with ⟨old, new, hold, hnew, rfl, rfl⟩ | ⟨next, rfl, rfl, hnext⟩
  · obtain ⟨_, rfl, rfl⟩ | ⟨_, he, _⟩ := hr'
    · cases hnew
      exact .inl ⟨old, hold, rfl, rfl, rfl⟩
    · cases he
  · obtain ⟨he, _⟩ | ⟨_, he, rfl, rfl⟩ := hr'
    · cases he
    · cases he
      exact .inr ⟨next, rfl, rfl, rfl, hnext⟩

theorem progress_notifyChild {Writes : Store → Store → Prop} {id : Str} {landed : List Landing}
    (hok : LoopsOk id s) (h : s.notifyChild id store = some (store', s', landed)) :
    Progress Writes id store s { store := store', sched := s', landed } := by
  rcases Sched.notifyChild_spec h with
    ⟨item, r, hdone, rfl, rfl, rfl⟩ | ⟨item, child, todo, r, r', hnotify, hr, hr'⟩
  · exact .leave hdone
  · rcases Retry.step_cases (hok.notify item _ r hnotify) hr with
      ⟨old, new, hold, hnew, rfl, rfl⟩ | ⟨next, rfl, rfl, hnext⟩
    · obtain ⟨_, rfl, rfl⟩ | ⟨_, he, _⟩ := hr'
      · exact .land hnotify hold hnew
      · cases he
    · obtain ⟨he, _⟩ | ⟨_, he, rfl, rfl⟩ := hr'
      · cases he
      · cases he
        exact .retry hnotify hnext

theorem progress_of_act {Writes : Store → Store → Prop} {config : Config} {id : Str}
    {b : SchedAct} {numScheduler : Nat} {eff : Effect} (hok : LoopsOk id s)
    (hnone : Writes store store)
    (hcounter : ∀ key ∈ counterKeys, ∀ n, Writes store (store.insert key (numToStr n)))
    (hstat : ∀ counters, b = .recordStat counters →
      Writes store (store.insert id (valueToStr (s.recordVal config id counters))))
    (hb : b.isMove = false) (h : s.act config numScheduler id store b = some eff) :
    Progress Writes id store s eff := by
  cases b with
  | boot =>
    obtain ⟨⟨store', boot⟩, hboot, rfl⟩ := Option.map_eq_some_iff.1 h
    obtain ⟨hstore, hboot⟩ := writes_boot hnone hcounter hok.boot hboot
    exact .other hstore hboot hok.serving
  | countReceived =>
    obtain ⟨⟨store', s', counted⟩, hs, rfl⟩ := Option.map_eq_some_iff.1 h
    obtain ⟨batch, r, _, ⟨old, _, rfl, rfl, rfl⟩ | ⟨next, rfl, rfl, rfl, hnext⟩⟩ :=
      countReceived_cases hok.serving hs
    · exact .other (hcounter _ (by decide) _) hok.boot trivial
    · exact .other hnone hok.boot hnext
  | move a => cases hb
  | finish e =>
    obtain ⟨⟨s', tm⟩, hs, rfl⟩ := Option.map_eq_some_iff.1 h
    obtain ⟨value, key, hexec, rfl⟩ := Sched.finish_spec hs
    exact .finish hexec
  | popComplete =>
    obtain ⟨s', hs, rfl⟩ := Option.map_eq_some_iff.1 h
    obtain ⟨_, _, hidle, hqueue, rfl⟩ := Sched.popComplete_spec hs
    exact .popComplete hidle hqueue
  | lookupChildren =>
    obtain ⟨s', hs, rfl⟩ := Option.map_eq_some_iff.1 h
    obtain ⟨_, _, hpopped, hvalue, rfl⟩ := Sched.lookupChildren_spec hs
    exact .lookupChildren hpopped hvalue
  | notifyChild =>
    obtain ⟨⟨store', s', landed⟩, hs, rfl⟩ := Option.map_eq_some_iff.1 h
    exact progress_notifyChild hok hs
  | recordStat counters =>
    cases h
    exact .other (hstat counters rfl) hok.boot hok.serving

theorem WorkerOk.loops (h : WorkerOk sys i s) : LoopsOk (sys.id i) s where
  boot := h.boot
  serving := h.serving
  notify := by
    intro item todo r hnotify
    have hn := h.notify
    rw [hnotify] at hn
    exact hn.2.2

theorem LoopsOk.kept {env : Env} {id : Str} (h : LoopsOk id s) (hk : Kept env s s') :
    LoopsOk id s' where
  boot := hk.boot ▸ h.boot
  serving := by
    rcases hk.serving with he | hlook
    · exact he ▸ h.serving
    · cases hs : s'.serving with
      | count batch r =>
        rw [hlook batch r hs]
        trivial
      | idle => trivial
      | enqueue batch todo => trivial
  notify := hk.notify ▸ h.notify

theorem LoopsOk.progress {Writes : Store → Store → Prop} {id : Str} {eff : Effect}
    (h : LoopsOk id s) (hp : Progress Writes id store s eff) : LoopsOk id eff.sched := by
  obtain ⟨hboot, hserving, hnotify⟩ := h
  cases hp with
  | other _ hboot hserving => exact ⟨hboot, hserving, hnotify⟩
  | finish _ => exact ⟨hboot, hserving, hnotify⟩
  | popComplete _ _ => exact ⟨hboot, hserving, nofun⟩
  | lookupChildren _ _ =>
    refine ⟨hboot, hserving, ?_⟩
    intro item todo r he
    cases he
    trivial
  | leave _ => exact ⟨hboot, hserving, nofun⟩
  | retry _ hok =>
    refine ⟨hboot, hserving, ?_⟩
    intro item todo r he
    cases he
    exact hok
  | land _ _ _ =>
    refine ⟨hboot, hserving, ?_⟩
    intro item todo r he
    cases he
    trivial

end Progress

section Workers

variable {n m : Nat} {sys : System n m} {i : Fin n} {store store' : Store} {s s' : Sched}
  {landed : List Landing} {client : Fin m → ClientPhase n}

theorem ExecOk.next {env : Env} {localData localData' : Str → Option Str} {x y : Exec}
    (h : StoreOk sys env.store landed client) (hx : ExecOk env.id x)
    (hxy : ExecNext env localData x y localData') : ExecOk env.id y := by
  cases hxy with
  | lookup hv =>
    obtain ⟨text, htext, hval⟩ := eq_some_of_strToValue hv
    exact ⟨h.isItem htext, isInt_outputsize hval⟩
  | skip _ _ => exact hx
  | fetch _ _ _ _ _ => exact hx
  | require _ _ => exact hx
  | receive _ _ _ => exact hx
  | run _ => exact ⟨rfl, hx.1, hx.2⟩

theorem WorkerOk.kept {env : Env} (h : WorkerOk sys i s)
    (hstore : StoreOk sys env.store landed client) (hid : env.id = sys.id i) (hk : Kept env s s') :
    WorkerOk sys i s' where
  boot := hk.boot ▸ h.boot
  serving := (h.loops.kept hk).serving
  exec := hk.exec.forall_mem (fun _ => trivial) (fun _ _ _ => hid ▸ ExecOk.next hstore) h.exec
  complete := hk.completeQueue ▸ h.complete
  notify := hk.notify ▸ h.notify

theorem hasRecord_of_children (h : StoreOk sys store landed client) {key : Str} {value : Value}
    (hv : strToValue (store.lookup key) = some value) {child : Str}
    (hchild : child ∈ value.children) : ∃ c k, sys.HasRecord c k ∧ child = sys.taskId c k := by
  obtain ⟨text, htext, hval⟩ := eq_some_of_strToValue hv
  rcases h.children htext hval with ⟨_, hnil⟩ | ⟨c, k, adj, _, hadj, _, he⟩
  · rw [hnil] at hchild
    cases hchild
  · rw [he] at hchild
    obtain ⟨k', hk', rfl⟩ := List.mem_map.1 hchild
    exact ⟨c, k', ⟨adj, hadj, (genDagAdjlist_ok hadj).mem k k' hk'⟩, rfl⟩

theorem WorkerOk.progress (h : WorkerOk sys i s) (hstore : StoreOk sys store landed client)
    {eff : Effect} (hp : Progress sys.WritesForeign (sys.id i) store s eff) :
    WorkerOk sys i eff.sched := by
  cases hp with
  | other _ hboot hserving => exact ⟨hboot, hserving, h.exec, h.complete, h.notify⟩
  | finish hexec =>
    refine ⟨h.boot, h.serving, fun x hx => h.exec x (List.mem_of_mem_eraseIdx hx), ?_, h.notify⟩
    intro item hitem
    rcases List.mem_append.1 hitem with hitem | hitem
    · exact h.complete item hitem
    · rw [List.mem_singleton.1 hitem]
      exact h.exec _ (List.mem_of_getElem? hexec)
  | popComplete _ hqueue =>
    have hall := h.complete
    rw [hqueue] at hall
    exact ⟨h.boot, h.serving, h.exec, fun item hitem => hall item (List.mem_cons_of_mem _ hitem),
      hall _ List.mem_cons_self⟩
  | lookupChildren hpopped hvalue =>
    have hitem := h.notify
    rw [hpopped] at hitem
    exact ⟨h.boot, h.serving, h.exec, h.complete,
      hitem, fun child hchild => hasRecord_of_children hstore hvalue hchild, trivial⟩
  | leave _ => exact ⟨h.boot, h.serving, h.exec, h.complete, trivial⟩
  | retry hnotify hok =>
    have hn := h.notify
    rw [hnotify] at hn
    exact ⟨h.boot, h.serving, h.exec, h.complete, hn.1, hn.2.1, hok⟩
  | land hnotify _ _ =>
    have hn := h.notify
    rw [hnotify] at hn
    exact ⟨h.boot, h.serving, h.exec, h.complete,
      hn.1, fun child hchild => hn.2.1 child (List.mem_cons_of_mem _ hchild), trivial⟩

theorem Act.apart_of_foreign (h : ∀ i, sys.Foreign (sys.id i)) (a : Act n m) : a.apart sys := by
  cases a with
  | sched i b =>
    cases b with
    | recordStat counters => exact h i
    | _ => trivial
  | _ => trivial

theorem StoreOk.writesForeign (h : StoreOk sys store landed client)
    (hs : sys.WritesForeign store store') : StoreOk sys store' landed client := by
  rcases hs with rfl | ⟨key, text, hf, hkey, ht, rfl⟩
  · exact h
  · exact h.insert_foreign hf hkey ht

theorem ItemOk.landing_ok {id child : Str} {item : CmpQueueItem} (h : ItemOk id item)
    (hid : IsItem id) : Landing.Ok ⟨child, id, item⟩ where
  id := hid
  key := by
    rw [h.key]
    exact hid.append h.taskId
  dataSize := h.dataSize.isLong

theorem StoreOk.progress (h : StoreOk sys store landed client) (hd : sys.Distinct)
    (hid : IsItem (sys.id i)) (hw : WorkerOk sys i s) {eff : Effect}
    (hp : Progress sys.WritesForeign (sys.id i) store s eff) :
    StoreOk sys eff.store (landed ++ eff.landed) client := by
  cases hp with
  | land hnotify hold hnew =>
    have hn := hw.notify
    rw [hnotify] at hn
    obtain ⟨hitem, htodo, _⟩ := hn
    obtain ⟨c, k, hr, hchild⟩ := htodo _ List.mem_cons_self
    exact h.land hd (hitem.landing_ok hid) hr hchild hold hnew
  | other hstore _ _ => simpa using h.writesForeign hstore
  | finish _ => simpa using h
  | popComplete _ _ => simpa using h
  | lookupChildren _ _ => simpa using h
  | leave _ => simpa using h
  | retry _ _ => simpa using h

end Workers

namespace State

variable {n m : Nat} {sys : System n m} {st st' : State n m}

/-- The store holds records and the schedulers write only such. -/
structure Records (sys : System n m) (st : State n m) : Prop where
  store : StoreOk sys st.store st.landed st.client
  worker : ∀ i, WorkerOk sys i (st.sched i)

theorem Records.progress (h : st.Records sys) {i : Fin n} {b : SchedAct} {eff : Effect}
    (hid : ∀ i, IsItem (sys.id i)) (hapart : Act.apart sys (.sched i b))
    (hb : b.isMove = false)
    (heff : (st.sched i).act sys.config n (sys.id i) st.store b = some eff) :
    Progress sys.WritesForeign (sys.id i) st.store (st.sched i) eff := by
  apply progress_of_act (h.worker i).loops (.inl rfl) (fun key hkey n => .counter hkey n) _ hb heff
  intro counters hb
  subst hb
  exact .inr ⟨_, _, hapart, hid i, inert_recordVal (hid i), rfl⟩

theorem Records.step (h : st.Records sys) (hd : sys.Distinct) (hid : ∀ i, IsItem (sys.id i))
    {a : Act n m} (ha : a.apart sys) (hs : st.step sys a = some st') : st'.Records sys := by
  rcases step_cases hs with
    hq | ⟨i, b, eff, rfl, hb, heff, rfl⟩ | ⟨c, store, phase, hp, rfl⟩
  · have hworker (i : Fin n) : WorkerOk sys i (st'.sched i) :=
      (h.worker i).kept h.store rfl (hq.sched i)
    refine ⟨?_, hworker⟩
    rw [hq.store, hq.landed]
    refine ⟨h.store.record, h.store.absent, h.store.other, fun c => ?_⟩
    rcases hq.client c with he | ⟨t, t', _, he⟩
    · rw [he]
      exact h.store.client c
    · rw [he]
      trivial
  · have hp := h.progress hid ha hb heff
    refine ⟨h.store.progress hd (hid i) (h.worker i) hp, fun k => ?_⟩
    by_cases hk : k = i
    · subst hk
      simpa only [State.apply, Function.update_self] using (h.worker k).progress h.store hp
    · simpa only [State.apply, Function.update_of_ne hk] using h.worker k
  · exact ⟨h.store.clientNext hd (h.store.client c) hp, h.worker⟩

theorem records_start (sys : System n m) : (start n m).Records sys where
  store :=
    { record := fun _ _ _ _ hs => nomatch hs
      absent := fun _ _ _ _ => rfl
      other := fun _ _ _ hs => nomatch hs
      client := fun _ => trivial }
  worker := by
    intro i
    exact ⟨bootOk_start i, trivial, by simp [start], by simp [start], trivial⟩

theorem records_run {acts : List (Act n m)} (hd : sys.Distinct) (hid : ∀ i, IsItem (sys.id i))
    (hacts : ∀ a ∈ acts, a.apart sys) (hrun : runActs (State.step sys) (start n m) acts = some st) :
    st.Records sys :=
  runActs_preserves (P := fun st => st.Records sys)
    (fun _ _ _ ha hs h => h.step hd hid ha hs) hacts hrun (records_start sys)

end State

/-- In every state of every run, the record of every inserted task is the text of a record that
agrees with the graph. -/
theorem run_record_agrees {n m : Nat} (sys : System n m) (hd : sys.Distinct)
    (hid : ∀ i, IsItem (sys.id i)) (acts : List (Act n m)) (hacts : ∀ a ∈ acts, a.apart sys)
    (st : State n m) (hrun : runActs (State.step sys) (State.start n m) acts = some st)
    (c : Fin m) (k : Int) (text : Str) (hr : sys.HasRecord c k)
    (htext : st.store (sys.taskId c k) = some text) :
    ∃ value adj, strToValue text = some value ∧ (sys.client c).adjList = some adj ∧
      value.indegree.getD 0 + value.parents.length = (adj.parents k).length ∧
      value.datanamelist.length = value.parents.length ∧
      value.datasize.length = value.parents.length ∧
      (IsLong value.datasize.sum → value.alldatasize.getD 0 = value.datasize.sum) ∧
      value.children = (adj.children k).map (sys.taskId c) := by
  obtain ⟨L, _, hrec⟩ := (State.records_run hd hid hacts hrun).store.record c k text hr htext
  obtain ⟨adj, time, hadj, _, hval⟩ := hrec.strToValue_eq
  refine ⟨_, adj, hval, hadj, ?_, ?_, ?_, ?_, rfl⟩
  · simp [recordOf]
  · simp [recordOf]
  · simp [recordOf]
  · intro hlong
    by_cases hnil : L = []
    · simp [recordOf, hnil]
    · simpa [recordOf, hnil] using toInt64_eq hlong

/-- The ids of a single client are always distinct. -/
theorem distinct_of_single {n : Nat} (sys : System n 1) : sys.Distinct := by
  intro c c' k k' _ _ he
  obtain rfl : c = c' := Subsingleton.elim c c'
  exact ⟨rfl, taskId_injective _ he⟩

/-- One scheduler and one client. -/
def soloSystem (id : Str) (conf : ClientConf) : System 1 1 where
  config :=
    { numAllTask := conf.numTask
      maxTaskPerPkg := conf.numTask
      dataSizeThreshold := 0
      numCorePerExecutor := 1
      cache := false }
  id := fun _ => id
  client := fun _ => conf

/-- The tasks of the client arrive in the wait queue. -/
def loadRun (sys : System 1 1) : List (Act 1 1) :=
  let conf := sys.client 0
  List.replicate 5 (.sched 0 .boot) ++ List.replicate (3 * conf.numTask + 3) (.client 0 0 7) ++
  [.submit 0,
    .sched 0 (.move (.accept [(batchStream sys.config conf.tasks "client".toList).getD []])),
    .sched 0 (.move .enqueue), .sched 0 (.move .enqueue), .sched 0 .countReceived,
    .sched 0 .countReceived, .sched 0 .boot]

/-- The first task of the wait queue is found ready. -/
def checkRun : List (Act 1 1) :=
  [.sched 0 (.move .popWaiting), .sched 0 (.move .lookupReady), .sched 0 (.move .processReady),
    .sched 0 (.move .putChecked)]

/-- A task with empty data from `numParents` parents is run and `numChildren` children are
notified. -/
def execRun (numParents numChildren : Nat) : List (Act 1 1) :=
  [.sched 0 (.move (.popReady false 0)), .sched 0 (.move (.lookupExec 0))] ++
  List.replicate numParents (.sched 0 (.move (.fetchLocal 0))) ++
  [.sched 0 (.move (.storeResult 0 "done".toList)), .sched 0 (.finish 0), .sched 0 .popComplete,
    .sched 0 .lookupChildren] ++
  List.replicate (2 * numChildren + 1) (.sched 0 .notifyChild)

/-- A client whose second task needs the first. -/
def chainConf : ClientConf where
  index := 0
  dagType := .fanOut
  dagArg := 1
  numTask := 2
  numTask_lt := two_lt_bound
  taskVec := ["u d a".toList, "u d b".toList]
  submitMode := .worstcase

/-- A client with two independent tasks. The command of the first has a byte that separates tasks
in a message. -/
def doubledConf : ClientConf :=
  { chainConf with dagType := .bot, taskVec := ["u d a!00".toList, "u d b".toList] }

def chainSystem : System 1 1 := soloSystem "s".toList chainConf

/-- The first task is run and the second one notified. -/
def chainRun : List (Act 1 1) := loadRun chainSystem ++ checkRun ++ execRun 0 1

theorem foreign_chainSystem (i : Fin 1) : chainSystem.Foreign (chainSystem.id i) :=
  foreign_of_mem (d := 's') (by decide +revert) (by decide) (by decide)

theorem run_record_agrees_chain :
    ∃ st text value, runActs (State.step chainSystem) (State.start 1 1) chainRun = some st ∧
      st.store (chainSystem.taskId 0 1) = some text ∧ strToValue text = some value ∧
      value.indegree.getD 0 + value.parents.length = 1 := by
  have hsome : (runActs (State.step chainSystem) (State.start 1 1) chainRun).any (fun st =>
      (st.store (chainSystem.taskId 0 1)).isSome) = true := by
    decide +kernel
  have hmem : (chainSystem.client 0).adjList.any (fun adj => 1 ∈ adj ∧
      (adj.parents 1).length = 1) = true := by
    decide +kernel
  obtain ⟨st, hrun, hst⟩ := (Option.any_eq_true _ _).1 hsome
  obtain ⟨text, htext⟩ := Option.isSome_iff_exists.1 hst
  obtain ⟨adj, hadj, hk⟩ := (Option.any_eq_true _ _).1 hmem
  obtain ⟨hk, hlen⟩ := of_decide_eq_true hk
  obtain ⟨value, adj', hval, hadj', hin, _⟩ := run_record_agrees chainSystem
    (distinct_of_single chainSystem) (by decide) chainRun
    (fun a _ => Act.apart_of_foreign foreign_chainSystem a) st hrun 0 1 text ⟨adj, hadj, hk⟩ htext
  rw [hadj] at hadj'
  cases hadj'
  exact ⟨st, text, value, hrun, htext, hval, by rw [hin, hlen, Nat.cast_one]⟩

end MatrixZht
