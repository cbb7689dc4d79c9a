import MatrixZht.Cluster.Dataless
import MatrixZht.Cluster.Exact
import MatrixZht.Cluster.Startup

namespace MatrixZht
open Lib

/-- What the serving thread is going to add to the counter of received tasks. -/
def Serving.due : Serving → Int
  | idle => 0
  | enqueue batch _ => batch.numTask
  | count batch _ => batch.numTask

def Sched.due (s : Sched) : Int := s.inbox.flatten.length + s.serving.due

/-- The moves of the serving thread. -/
def Move.serves : Move → Bool
  | accept _ => true
  | enqueue => true
  | _ => false

/-- The data that a record names have one size for each parent. -/
def Value.Level (value : Value) : Prop := value.datasize.length = value.parents.length

/-- A core goes through the parents of its task up to the last one. -/
def Exec.Level : Exec → Prop
  | .fetching _ value i _ => value.Level ∧ i ≤ value.parents.length
  | .requiring _ value i _ => value.Level ∧ i < value.parents.length
  | _ => True

/-- The tasks that have been run and whose children have not been read yet. -/
def Sched.completed (s : Sched) : List CmpQueueItem :=
  s.completeQueue ++
    match s.notify with
    | .popped cqItem => [cqItem]
    | _ => []

section Defs

variable {n m : Nat}

/-- The first scheduler has created the counters, or it is going to. -/
def State.Created (st : State n m) : Prop :=
  ∀ i : Fin n, i.val = 0 → ∀ p ∈ registInserts, (st.store p.1).isSome ∨
    ∃ todo, (st.sched i).boot = .insert todo ∧ p ∈ todo

/-- What has been sent has been counted or is going to be. -/
def State.Owing (st : State n m) : Prop :=
  st.counted.sum + ∑ i, (st.sched i).due = st.submitted.length

/-- What has been completed has been run. -/
def State.Ran (st : State n m) : Prop :=
  ∀ i, ∀ item ∈ (st.sched i).completed, ∃ e ∈ st.executed, e.2.taskid = item.taskId

/-- What holds of the counters and the cores in every run, also after the start-up. -/
structure State.Live (st : State n m) : Prop where
  booting : st.Booting
  created : st.Created
  owing : st.Owing
  level : ∀ i, ∀ x ∈ (st.sched i).exec, x.Level
  ran : st.Ran

end Defs

namespace Sched

variable {config : Config} {env : Env} {id : Str} {store : Store} {s s' : Sched}

theorem served_of_move {a : Move} (ha : a.serves = false)
    (h : s.move config id store a = some s') :
    s'.inbox = s.inbox ∧ s'.serving = s.serving := by
  cases a with
  | accept reads => cases ha
  | enqueue => cases ha
  | recvStolen reads =>
    obtain ⟨_, _, _, _, _, _, _, rfl⟩ := recvStolen_spec h
    exact ⟨rfl, rfl⟩
  | putStolen =>
    obtain ⟨_, rfl⟩ | ⟨_, _, _, rfl⟩ := putStolen_spec h
    · exact ⟨rfl, rfl⟩
    · exact ⟨rfl, rfl⟩
  | popWaiting =>
    obtain ⟨_, _, _, _, rfl⟩ := popWaiting_spec h
    exact ⟨rfl, rfl⟩
  | lookupReady =>
    obtain ⟨_, _, _, _, ⟨_, rfl⟩ | rfl⟩ := lookupReady_spec h
    · exact ⟨rfl, rfl⟩
    · exact ⟨rfl, rfl⟩
  | processReady =>
    obtain ⟨_, _, _, _, _, _, _, _, rfl⟩ := processReady_spec h
    exact ⟨rfl, rfl⟩
  | putChecked =>
    obtain ⟨_, ⟨_, rfl⟩ | ⟨_, rfl⟩ | ⟨_, rfl⟩⟩ := putChecked_spec h
    · exact ⟨rfl, rfl⟩
    · exact ⟨rfl, rfl⟩
    · exact ⟨rfl, rfl⟩
  | migrateOut maxSize ks ks' =>
    obtain ⟨_, _, _, _, _, _, _, _, rfl⟩ := migrateOut_spec h
    exact ⟨rfl, rfl⟩
  | migrateIn =>
    cases h
    exact ⟨rfl, rfl⟩
  | popReady fromLocal k =>
    obtain ⟨_, _, _, ⟨_, _, rfl⟩ | ⟨_, _, rfl⟩⟩ := popReady_spec h
    · exact ⟨rfl, rfl⟩
    · exact ⟨rfl, rfl⟩
  | lookupExec e =>
    obtain ⟨_, _, _, _, rfl⟩ := lookupExec_spec h
    exact ⟨rfl, rfl⟩
  | fetchLocal e =>
    obtain ⟨_, _, _, _, _, _, _, _, _, _, _, rfl⟩ := fetchLocal_spec h
    exact ⟨rfl, rfl⟩
  | requireData e =>
    obtain ⟨_, _, _, _, _, _, _, _, rfl⟩ := requireData_spec h
    exact ⟨rfl, rfl⟩
  | storeResult e result =>
    obtain ⟨_, _, _, _, rfl⟩ := storeResult_spec h
    exact ⟨rfl, rfl⟩

theorem fetchRemote_served {peer : Sched} {peerId : Str} {e : Nat} {reads : List Str}
    (h : s.fetchRemote config peerId e reads peer = some s') : s'.due = s.due := by
  obtain ⟨_, _, _, _, _, _, _, _, _, _, _, _, _, _, _, rfl⟩ := fetchRemote_spec h
  rfl

theorem level_next {localData localData' : Str → Option Str} {x y : Exec} (h : x.Level)
    (hlook : ∀ value, strToValue (env.store.lookup x.task.taskid) = some value → value.Level)
    (hxy : ExecNext env localData x y localData') : y.Level := by
  cases hxy with
  | lookup hvalue => exact ⟨hlook _ hvalue, Nat.zero_le _⟩
  | skip hsize _ => exact ⟨h.1, h.1 ▸ (List.getElem?_eq_some_iff.1 hsize).1⟩
  | fetch hsize => exact ⟨h.1, h.1 ▸ (List.getElem?_eq_some_iff.1 hsize).1⟩
  | require hsize => exact ⟨h.1, h.1 ▸ (List.getElem?_eq_some_iff.1 hsize).1⟩
  | receive => exact ⟨h.1, h.2⟩
  | run => trivial

end Sched

namespace State

variable {n m : Nat} {sys : System n m} {st st' : State n m} {i : Fin n}

theorem Booting.frame (h : st.Booting) (hboot : ∀ i, (st'.sched i).boot = (st.sched i).boot)
    (hstore : ∀ key ∈ counterKeys, st'.store key = st.store key)
    (hcounted : st'.counted = st.counted) : st'.Booting where
  boot := fun i => hboot i ▸ h.boot i
  first := fun i todo hi => h.first i todo (hboot i ▸ hi)
  reg := h.reg.congr (hstore _ (by decide)) (fun i => by rw [hboot i]) fun i hi => hboot i ▸ hi
  recv := h.recv.congr (hstore _ (by decide)) (fun i todo hi => hboot i ▸ hi) hcounted

theorem foreign_counter {key : Str} (hkey : key ∈ counterKeys) : sys.Foreign key := by
  simp only [counterKeys, List.mem_cons, List.not_mem_nil, or_false] at hkey
  obtain rfl | rfl | rfl := hkey
  · exact foreign_numSchedulerRegistered
  · exact foreign_numTasksDone
  · exact foreign_numTasksRecv

/-- A step that a scheduler makes once it has booted leaves the counters alone, the counter of
received tasks apart. -/
theorem act_frame {b : SchedAct} {eff : Effect} (hr : st.Records sys)
    (hkeys : ∀ i, sys.id i ∉ counterKeys) (hmove : b.isMove = false) (hboot : b ≠ .boot)
    (hcount : b ≠ .countReceived)
    (heff : (st.sched i).act sys.config n (sys.id i) st.store b = some eff) :
    eff.sched.boot = (st.sched i).boot ∧ eff.sched.due = (st.sched i).due ∧ eff.counted = [] ∧
      ∀ key ∈ counterKeys, eff.store key = st.store key := by
  cases b with
  | boot => exact absurd rfl hboot
  | countReceived => exact absurd rfl hcount
  | move a => cases hmove
  | finish e =>
    obtain ⟨⟨s', tm⟩, hs, rfl⟩ := Option.map_eq_some_iff.1 heff
    obtain ⟨_, _, _, rfl⟩ := Sched.finish_spec hs
    exact ⟨rfl, rfl, rfl, fun _ _ => rfl⟩
  | popComplete =>
    obtain ⟨s', hs, rfl⟩ := Option.map_eq_some_iff.1 heff
    obtain ⟨_, _, _, _, rfl⟩ := Sched.popComplete_spec hs
    exact ⟨rfl, rfl, rfl, fun _ _ => rfl⟩
  | lookupChildren =>
    obtain ⟨s', hs, rfl⟩ := Option.map_eq_some_iff.1 heff
    obtain ⟨_, _, _, _, rfl⟩ := Sched.lookupChildren_spec hs
    exact ⟨rfl, rfl, rfl, fun _ _ => rfl⟩
  | notifyChild =>
    obtain ⟨⟨store', s', landed⟩, hs, rfl⟩ := Option.map_eq_some_iff.1 heff
    have hn := (hr.worker i).notify
    rcases Sched.notifyChild_spec hs with
      ⟨_, _, _, rfl, rfl, _⟩ | ⟨item, child, todo, r, r', hnotify, hr, hr'⟩
    · exact ⟨rfl, rfl, rfl, fun _ _ => rfl⟩
    · rw [hnotify] at hn
      obtain ⟨c, k, hk, rfl⟩ := hn.2.1 child List.mem_cons_self
      refine ⟨?_, ?_, rfl, fun key hkey => ?_⟩
      · obtain ⟨_, rfl, _⟩ | ⟨_, _, _, rfl⟩ := hr' <;> rfl
      · obtain ⟨_, rfl, _⟩ | ⟨_, _, _, rfl⟩ := hr' <;> rfl
      · obtain ⟨_, _, _, _, rfl, _⟩ | ⟨_, rfl, _, _⟩ := Retry.step_cases hn.2.2 hr
        · exact Store.insert_of_ne (foreign_counter hkey c k hk.hasTask)
        · rfl
  | recordStat counters =>
    cases heff
    refine ⟨rfl, rfl, rfl, fun key hkey => Store.insert_of_ne fun he => hkeys i (he ▸ hkey)⟩

@[simp] theorem apply_store {eff : Effect} : (st.apply i eff).store = eff.store := rfl

theorem boot_apply {eff : Effect} (hboot : eff.sched.boot = (st.sched i).boot) (j : Fin n) :
    ((st.apply i eff).sched j).boot = (st.sched j).boot := boot_update rfl hboot j

theorem Booting.boot_step (h : st.Booting) {store : Store} {boot : Boot}
    (hs : (st.sched i).boot.step n sys.config.numAllTask st.store = some (store, boot)) :
    (st.apply i { store, sched := { st.sched i with boot } }).Booting := by
  have hself : ((st.apply i { store, sched := { st.sched i with boot } }).sched i).boot = boot := by
    rw [apply_self]
  have hoff (j : Fin n) (hj : j ≠ i) :
      ((st.apply i { store, sched := { st.sched i with boot } }).sched j).boot =
        (st.sched j).boot := by
    rw [apply_of_ne hj]
  have hok : BootOk boot ∧ ∀ todo, boot = .insert todo → i.val = 0 := by
    rcases Boot.step_cases (h.boot i) hs with
      ⟨p, todo, hboot, _, rfl⟩ | ⟨_, _, _, _, _, rfl⟩ | ⟨_, _, hboot, hno⟩
    · have hold := h.boot i
      rw [hboot] at hold
      exact ⟨(List.suffix_cons p todo).trans hold, fun _ _ => h.first i _ hboot⟩
    · exact ⟨trivial, nofun⟩
    · exact ⟨hboot, fun todo he => absurd he (hno todo)⟩
  refine ⟨fun j => ?_, fun j todo hj => ?_, RegOk.boot h hs rfl hself hoff,
    RecvOk.boot h hs rfl hself hoff (List.append_nil _)⟩
  · by_cases hji : j = i
    · rw [hji, hself]
      exact hok.1
    · rw [hoff j hji]
      exact h.boot j
  · by_cases hji : j = i
    · rw [hji, hself] at hj
      rw [hji]
      exact hok.2 todo hj
    · rw [hoff j hji] at hj
      exact h.first j todo hj

theorem Booting.count_step (h : st.Booting) (hserve : ServingOk (st.sched i).serving)
    {store : Store} {s : Sched} {counted : List Int}
    (hs : (st.sched i).countReceived st.store = some (store, s, counted)) :
    (st.apply i { store, sched := s, counted }).Booting := by
  obtain ⟨batch, r, _, ⟨old, hold, rfl, rfl, rfl⟩ | ⟨next, rfl, rfl, rfl, _⟩⟩ :=
    countReceived_cases hserve hs
  · refine ⟨fun j => ?_, fun j todo hj => ?_, ?_, ?_⟩
    · rw [boot_apply rfl]
      exact h.boot j
    · rw [boot_apply rfl] at hj
      exact h.first j todo hj
    · refine h.reg.congr ?_ (fun j => by rw [boot_apply rfl]) fun j hj => ?_
      · simp only [apply_store]
        rw [Store.insert_of_ne (by decide)]
      · rwa [boot_apply rfl] at hj
    · refine h.recv.count hold ?_ (fun j todo hj => ?_) rfl
      · simp only [apply_store, Store.insert_self]
      · rwa [boot_apply rfl] at hj
  · exact h.frame (boot_apply rfl) (fun _ _ => rfl) (List.append_nil _)

theorem Booting.step (h : st.Booting) (hr : st.Records sys) (hkeys : ∀ i, sys.id i ∉ counterKeys)
    {a : Act n m} (hs : st.step sys a = some st') : st'.Booting := by
  rcases step_cases hs with
    hq | ⟨i, b, eff, rfl, hmove, heff, rfl⟩ | ⟨c, store, phase, hp, rfl⟩
  · exact h.frame (fun i => (hq.sched i).boot) (fun _ _ => by rw [hq.store]) hq.counted
  · by_cases hboot : b = .boot
    · subst hboot
      obtain ⟨⟨store, boot⟩, hboot, rfl⟩ := Option.map_eq_some_iff.1 heff
      exact h.boot_step hboot
    · by_cases hcount : b = .countReceived
      · subst hcount
        obtain ⟨⟨store, s, counted⟩, hcount, rfl⟩ := Option.map_eq_some_iff.1 heff
        exact h.count_step (hr.worker i).serving hcount
      · obtain ⟨hb, _, hc, hstore⟩ := act_frame hr hkeys hmove hboot hcount heff
        exact h.frame (boot_apply hb) hstore (by rw [apply, hc, List.append_nil])
  · refine h.frame (fun _ => rfl) (fun key hkey => ?_) rfl
    rcases hp.writes (hr.store.client c) with rfl | ⟨k, _, hk, rfl⟩
    · rfl
    · exact Store.insert_of_ne (foreign_counter hkey c k hk.hasTask)

theorem Created.mono (h : st.Created) (hboot : ∀ i, (st'.sched i).boot = (st.sched i).boot)
    (hstore : ∀ key, (st.store key).isSome = true → (st'.store key).isSome = true) :
    st'.Created := by
  intro i hi p hp
  rcases h i hi p hp with hsome | htodo
  · exact .inl (hstore _ hsome)
  · rw [← hboot i] at htodo
    exact .inr htodo

theorem Created.boot_step (h : st.Created) (hok : BootOk (st.sched i).boot) {store : Store}
    {boot : Boot}
    (hs : (st.sched i).boot.step n sys.config.numAllTask st.store = some (store, boot)) :
    (st.apply i { store, sched := { st.sched i with boot } }).Created := by
  intro j hj p hp
  simp only [apply_store]
  have hmono (hsome : (st.store p.1).isSome = true) : (store p.1).isSome = true := by
    rcases Boot.step_cases hok hs with
      ⟨_, _, _, rfl, _⟩ | ⟨_, _, _, _, rfl, _⟩ | ⟨rfl, _⟩
    · exact isSome_insert hsome
    · exact isSome_insert hsome
    · exact hsome
  rcases h j hj p hp with hsome | ⟨todo, htodo, hmem⟩
  · exact .inl (hmono hsome)
  · by_cases hji : j = i
    · subst hji
      obtain ⟨q, rest, rfl⟩ := List.exists_cons_of_ne_nil (List.ne_nil_of_mem hmem)
      rw [htodo] at hs
      cases hs
      rcases List.mem_cons.1 hmem with rfl | hmem
      · exact .inl (by rw [Store.insert_self]; rfl)
      · exact .inr ⟨rest, by rw [apply_self], hmem⟩
    · exact .inr ⟨todo, by rw [apply_of_ne hji, htodo], hmem⟩

theorem Created.step (h : st.Created) (hr : st.Records sys) (hid : ∀ i, IsItem (sys.id i))
    (hkeys : ∀ i, sys.id i ∉ counterKeys) {a : Act n m} (ha : a.apart sys)
    (hs : st.step sys a = some st') : st'.Created := by
  rcases step_cases hs with
    hq | ⟨i, b, eff, rfl, hmove, heff, rfl⟩ | ⟨c, store, phase, hp, rfl⟩
  · exact h.mono (fun i => (hq.sched i).boot) fun key hsome => hq.store ▸ hsome
  · have hp := hr.progress hid ha hmove heff
    by_cases hboot : b = .boot
    · subst hboot
      obtain ⟨⟨store, boot⟩, hboot, rfl⟩ := Option.map_eq_some_iff.1 heff
      exact h.boot_step (hr.worker i).boot hboot
    · have hb : eff.sched.boot = (st.sched i).boot := by
        by_cases hcount : b = .countReceived
        · subst hcount
          obtain ⟨⟨store, s, counted⟩, hcount, rfl⟩ := Option.map_eq_some_iff.1 heff
          obtain ⟨_, _, _, _, _, ⟨_, rfl, _⟩ | ⟨_, _, rfl, _⟩⟩ :=
            Sched.countReceived_spec hcount <;> rfl
        · exact (act_frame hr hkeys hmove hboot hcount heff).1
      exact h.mono (boot_apply hb) fun key hsome => isSome_progress hp hsome
  · refine h.mono (fun _ => rfl) fun key hsome => ?_
    rcases hp.writes (hr.store.client c) with rfl | ⟨_, _, _, rfl⟩
    · exact hsome
    · exact isSome_insert hsome

theorem sum_sched_update {M : Type*} [AddCommMonoid M] (f : Sched → M) (st : State n m) (i : Fin n)
    (s : Sched) : ∑ j, f (Function.update st.sched i s j) + f (st.sched i) =
      ∑ j, f (st.sched j) + f s := by
  have hoff (j : Fin n) (hj : j ≠ i) : f (Function.update st.sched i s j) = f (st.sched j) := by
    rw [Function.update_of_ne hj]
  have hsum := sum_add_eq_of_off i hoff
  rwa [Function.update_self] at hsum

theorem Owing.update (h : st.Owing) {s : Sched} {counted : List Int} (sent : Nat)
    (hsched : st'.sched = Function.update st.sched i s)
    (hcounted : st'.counted = st.counted ++ counted)
    (hsent : st'.submitted.length = st.submitted.length + sent)
    (hdue : counted.sum + s.due = (st.sched i).due + sent) : st'.Owing := by
  have hsum := sum_sched_update Sched.due st i s
  unfold Owing at h ⊢
  rw [hsched, hcounted, hsent, List.sum_append]
  omega

theorem Owing.setSched (h : st.Owing) {s : Sched} (hdue : s.due = (st.sched i).due) :
    (st.setSched i s).Owing :=
  h.update 0 rfl (List.append_nil _).symm rfl (by simp [hdue])

theorem due_accept {reads : List Str} {s : Sched} (hclean : ∀ tm ∈ (st.sched i).held, tm.Clean)
    (hfew : (st.sched i).held.length < 2 ^ 31)
    (hs : (st.sched i).accept sys.config reads = some s) : s.due = (st.sched i).due := by
  obtain ⟨tasks, inbox, hinbox, hserve, ⟨rfl, rfl⟩ | ⟨pkgs, hflat, rfl⟩⟩ :=
    Sched.accept_decoded hclean hs
  · simp [Sched.due, hinbox]
  · have hlen : tasks.length < 2 ^ 31 := by
      refine Nat.lt_of_le_of_lt ?_ hfew
      simp only [Sched.held, hinbox, List.flatten_cons, List.length_append]
      omega
    have hint : IsInt tasks.length := by
      unfold IsInt
      omega
    rw [toInt32_eq hint]
    simp only [Sched.due, Serving.due, hinbox, hserve, List.flatten_cons, List.length_append,
      Nat.cast_add]
    omega

theorem due_enqueue {store : Store} {s s' : Sched} (hs : s.enqueue store = some s') :
    s'.due = s.due := by
  rcases Sched.enqueue_spec hs with ⟨batch, henq, rfl⟩ | ⟨batch, pkg, todo, henq, rfl⟩
  · simp [Sched.due, Serving.due, henq]
  · simp [Sched.due, Serving.due, henq]

theorem Conserved.length_held_le (h : st.Conserved sys) (i : Fin n) :
    (st.sched i).held.length ≤ ∑ c, (sys.client c).tasks.length := by
  have hplaced := congrArg Multiset.card h.placed
  simp only [places, Multiset.card_add, Multiset.card_sum, card_cores] at hplaced
  have hone := Finset.single_le_sum (f := fun j => (st.sched j).held.length)
    (fun j _ => Nat.zero_le _) (Finset.mem_univ i)
  have hsent := h.card_submitted
  omega

theorem Owing.sched_step (h : st.Owing) (hcons : st.Conserved sys) (hr : st.Records sys)
    (hclean : sys.Clean) (hkeys : ∀ i, sys.id i ∉ counterKeys)
    (hfew : ∑ c, (sys.client c).tasks.length < 2 ^ 31) {b : SchedAct} {eff : Effect}
    (heff : (st.sched i).act sys.config n (sys.id i) st.store b = some eff) :
    (st.apply i eff).Owing := by
  refine h.update 0 rfl rfl rfl ?_
  have hframe (hdue : eff.sched.due = (st.sched i).due) (hc : eff.counted = []) :
      eff.counted.sum + eff.sched.due = (st.sched i).due + (0 : Nat) := by
    rw [hc, hdue]
    simp
  cases b with
  | boot =>
    obtain ⟨_, _, rfl⟩ := Option.map_eq_some_iff.1 heff
    exact hframe rfl rfl
  | countReceived =>
    obtain ⟨⟨store, s, counted⟩, hs, rfl⟩ := Option.map_eq_some_iff.1 heff
    obtain ⟨batch, r, _, hserve, _, ⟨_, rfl, rfl⟩ | ⟨_, _, rfl, rfl⟩⟩ :=
      Sched.countReceived_spec hs
    · simp [Sched.due, Serving.due, hserve]
      omega
    · exact hframe (by simp [Sched.due, Serving.due, hserve]) rfl
  | move a =>
    obtain ⟨s, hs, rfl⟩ := Option.map_eq_some_iff.1 heff
    refine hframe ?_ rfl
    by_cases ha : a.serves = true
    · cases a with
      | accept reads =>
        have hlen := hcons.length_held_le i
        exact due_accept (hcons.clean hclean i) (Nat.lt_of_le_of_lt hlen hfew) hs
      | enqueue => exact due_enqueue hs
      | _ => cases ha
    · obtain ⟨hinbox, hserving⟩ := Sched.served_of_move (by simpa using ha) hs
      simp only [Sched.due, hinbox, hserving]
  | _ =>
    obtain ⟨_, hdue, hc, _⟩ := act_frame hr hkeys (by rfl) (by nofun) (by nofun) heff
    exact hframe hdue hc

theorem Owing.step (h : st.Owing) (hcons : st.Conserved sys) (hr : st.Records sys)
    (hclean : sys.Clean) (hkeys : ∀ i, sys.id i ∉ counterKeys)
    (hfew : ∑ c, (sys.client c).tasks.length < 2 ^ 31) {a : Act n m}
    (hs : st.step sys a = some st') : st'.Owing := by
  have htake {i j : Fin n} {ks : List Nat} {taskVec : List TaskMsg} {st₁ : State n m}
      (htaken : st.takeFrom sys i j ks = some (taskVec, st₁)) : st₁.Owing := by
    obtain ⟨_, _, s, hgive, rfl⟩ := takeFrom_spec htaken
    obtain ⟨_, _, rfl⟩ := Sched.giveHalf_spec hgive
    exact h.setSched rfl
  cases a with
  | sched i b =>
    obtain ⟨eff, heff, rfl⟩ := Option.map_eq_some_iff.1 hs
    rw [Sched.step, Option.ite_none_right_eq_some] at heff
    exact h.sched_step hcons hr hclean hkeys hfew heff.2
  | client c scheIdx time =>
    obtain ⟨_, _, rfl⟩ := Option.map_eq_some_iff.1 hs
    exact h
  | submit c =>
    obtain ⟨⟨j, tasks, todo⟩, _, hs⟩ := Option.bind_eq_some_iff.1 hs
    rw [Option.ite_none_right_eq_some] at hs
    cases hs.2
    refine h.update (i := j) tasks.length rfl (List.append_nil _).symm List.length_append ?_
    simp [Sched.due]
    omega
  | refuse c =>
    obtain ⟨_, _, rfl⟩ := Option.map_eq_some_iff.1 hs
    exact h
  | ask i j =>
    simp only [State.step, stepAsk, Option.ite_none_right_eq_some] at hs
    cases hs.2
    exact h.setSched rfl
  | steal i j ks =>
    obtain ⟨⟨taskVec, st₁⟩, htaken, rfl⟩ := Option.map_eq_some_iff.1 hs
    exact (htake htaken).setSched rfl
  | stealFail i j ks =>
    obtain ⟨⟨taskVec, st₁⟩, htaken, rfl⟩ := Option.map_eq_some_iff.1 hs
    exact (htake htaken).setSched rfl
  | push i j =>
    obtain ⟨⟨tm, peer⟩, _, hs⟩ := Option.bind_eq_some_iff.1 hs
    rw [Option.ite_none_right_eq_some] at hs
    obtain ⟨s, hrecv, rfl⟩ := Option.map_eq_some_iff.1 hs.2
    obtain ⟨localQueue, rfl⟩ := recvPush_spec' hrecv
    have hsend : (st.setCheck i .idle).Owing := h.setSched rfl
    exact hsend.setSched rfl
  | pushFail i =>
    obtain ⟨_, _, rfl⟩ := Option.map_eq_some_iff.1 hs
    exact h.setSched rfl
  | fetch i e j reads =>
    obtain ⟨s, hfetch, rfl⟩ := Option.map_eq_some_iff.1 hs
    exact h.setSched (Sched.fetchRemote_served hfetch)

/-- The cores after a step that is no move. -/
theorem level_step (h : ∀ i, ∀ x ∈ (st.sched i).exec, x.Level) (hcons : st.Conserved sys)
    (hr : st.Records sys) (hid : ∀ i, IsItem (sys.id i)) {a : Act n m} (ha : a.apart sys)
    (hs : st.step sys a = some st') : ∀ i, ∀ x ∈ (st'.sched i).exec, x.Level := by
  rcases step_cases hs with
    hq | ⟨i, b, eff, rfl, hmove, heff, rfl⟩ | ⟨c, store, phase, hp, rfl⟩
  · intro i
    refine Sched.exec_kept (h i) (fun _ => trivial) (fun x y _ hheld hx hxy => ?_) (hq.sched i)
    refine Sched.level_next hx (fun value hvalue => ?_) hxy
    obtain ⟨_, _, _, _, _, _, rfl⟩ := hcons.value_eq hr hheld hvalue
    simp [Value.Level, recordOf]
  · have hp := hr.progress hid ha hmove heff
    intro j
    by_cases hj : j = i
    · rw [hj, apply_self]
      cases hp with
      | finish _ => exact fun x hx => h i x (List.mem_of_mem_eraseIdx hx)
      | _ => exact h i
    · rw [apply_of_ne hj]
      exact h j
  · exact h

theorem ran_progress {Writes : Store → Store → Prop} {id : Str} {eff : Effect}
    (hp : Progress Writes id st.store (st.sched i) eff) {item : CmpQueueItem}
    (hitem : item ∈ eff.sched.completed) :
    item ∈ (st.sched i).completed ∨ ∃ tm ∈ eff.executed, tm.taskid = item.taskId := by
  cases hp with
  | other _ _ _ => exact .inl hitem
  | finish _ =>
    simp only [Sched.completed, List.mem_append, List.mem_singleton] at hitem ⊢
    rcases hitem with (hitem | rfl) | hitem
    · exact .inl (.inl hitem)
    · exact .inr ⟨_, rfl, rfl⟩
    · exact .inl (.inr hitem)
  | popComplete hidle hqueue =>
    simp only [Sched.completed, hidle, hqueue, List.mem_append, List.mem_cons, List.not_mem_nil,
      or_false] at hitem ⊢
    exact .inl hitem.symm
  | _ =>
    have hqueue : item ∈ (st.sched i).completeQueue := by simpa [Sched.completed] using hitem
    exact .inl (List.mem_append_left _ hqueue)

theorem Ran.step (h : st.Ran) (hr : st.Records sys) (hid : ∀ i, IsItem (sys.id i)) {a : Act n m}
    (ha : a.apart sys) (hs : st.step sys a = some st') : st'.Ran := by
  rcases step_cases hs with
    hq | ⟨i, b, eff, rfl, hmove, heff, rfl⟩ | ⟨c, store, phase, hp, rfl⟩
  · intro i item hitem
    rw [Sched.completed, (hq.sched i).completeQueue, (hq.sched i).notify] at hitem
    rw [hq.executed]
    exact h i item hitem
  · intro j item hitem
    have hold (hitem : item ∈ (st.sched j).completed) :
        ∃ e ∈ (st.apply i eff).executed, e.2.taskid = item.taskId := by
      obtain ⟨e, he, hid⟩ := h j item hitem
      exact ⟨e, List.mem_append_left _ he, hid⟩
    by_cases hj : j = i
    · subst hj
      rw [apply_self] at hitem
      rcases ran_progress (hr.progress hid ha hmove heff) hitem with hitem | ⟨tm, htm, hid⟩
      · exact hold hitem
      · exact ⟨(j, tm), List.mem_append_right _ (List.mem_map_of_mem htm), hid⟩
    · rw [apply_of_ne hj] at hitem
      exact hold hitem
  · exact h

theorem live_start (sys : System n m) : (start n m).Live where
  booting := (startup_start sys).booting
  created := by
    intro i hi p hp
    exact .inr ⟨registInserts, by simp [start, Boot.start, hi], hp⟩
  owing := by simp [Owing, start, Sched.due, Serving.due]
  level := by simp [start]
  ran := by simp [Ran, start, Sched.completed]

theorem Live.step (h : st.Live) (hcons : st.Conserved sys) (hr : st.Records sys)
    (hclean : sys.Clean) (hid : ∀ i, IsItem (sys.id i)) (hkeys : ∀ i, sys.id i ∉ counterKeys)
    (hfew : ∑ c, (sys.client c).tasks.length < 2 ^ 31) {a : Act n m} (ha : a.apart sys)
    (hs : st.step sys a = some st') : st'.Live where
  booting := h.booting.step hr hkeys hs
  created := h.created.step hr hid hkeys ha hs
  owing := h.owing.step hcons hr hclean hkeys hfew hs
  level := level_step h.level hcons hr hid ha hs
  ran := h.ran.step hr hid ha hs

theorem live_run {acts : List (Act n m)} (hclean : sys.Clean) (hd : sys.Distinct)
    (hid : ∀ i, IsItem (sys.id i)) (hkeys : ∀ i, sys.id i ∉ counterKeys)
    (hfew : ∑ c, (sys.client c).tasks.length < 2 ^ 31) (hacts : ∀ a ∈ acts, a.apart sys)
    (hrun : runActs (State.step sys) (start n m) acts = some st) : st.Live := by
  have hstart : (start n m).Conserved sys ∧ (start n m).Records sys ∧ (start n m).Live :=
    ⟨conserved_start sys, records_start sys, live_start sys⟩
  exact (runActs_preserves
    (P := fun st => st.Conserved sys ∧ st.Records sys ∧ st.Live)
    (fun _ _ _ ha hs h => ⟨h.1.step hclean hs, h.2.1.step hd hid ha hs,
      h.2.2.step h.1 h.2.1 hclean hid hkeys hfew ha hs⟩) hacts hrun hstart).2.2

end State

end MatrixZht
