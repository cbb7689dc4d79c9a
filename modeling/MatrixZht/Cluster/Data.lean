import MatrixZht.Cluster.Workers
import MatrixZht.Fetch

namespace MatrixZht
open Lib

/-- A string that records and requests for data carry unchanged. -/
def Plain (s : Str) : Prop := ∀ c ∈ s, c ∉ ['~', '?', '&', '\x00']

instance decidablePlain (s : Str) : Decidable (Plain s) :=
  inferInstanceAs (Decidable (∀ c ∈ s, c ∉ ['~', '?', '&', '\x00']))

/-- A scheduler id that starts keys of data. -/
def IdOk (id : Str) : Prop := Plain id ∧ ¬ id <+: "noextrainfo".toList

instance (id : Str) : Decidable (IdOk id) := inferInstanceAs (Decidable (_ ∧ _))

/-- A text that names no data, whatever it is read as. -/
def Bare (text : Str) : Prop :=
  ∀ value, strToValue text = some value → value.parents = [] ∧ value.datanamelist = []

section Plain

variable {s t id name : Str}

theorem Plain.not_mem (h : Plain s) {d : Char} (hd : d ∈ ['~', '?', '&', '\x00']) : d ∉ s :=
  fun hs => h d hs hd

theorem Plain.append (hs : Plain s) (ht : Plain t) : Plain (s ++ t) := by
  intro c hc
  rcases List.mem_append.1 hc with hc | hc
  · exact hs c hc
  · exact ht c hc

theorem Plain.isItem (h : Plain s) (hne : s ≠ []) : IsItem s :=
  isItem_iff.2 ⟨hne, h.not_mem (by decide), h.not_mem (by decide)⟩

theorem plain_numToStr (n : Int) : Plain (numToStr n) := by
  intro c hc hmem
  simp only [List.mem_cons, List.not_mem_nil, or_false] at hmem
  rcases hmem with rfl | rfl | rfl | rfl
  · exact not_mem_numToStr n (by decide) (by decide) hc
  · exact not_mem_numToStr n (by decide) (by decide) hc
  · exact not_mem_numToStr n (by decide) (by decide) hc
  · exact not_mem_numToStr n (by decide) (by decide) hc

theorem plain_taskId (index k : Int) : Plain (taskId index k) :=
  (plain_numToStr index).append (plain_numToStr k)

theorem IdOk.ne_nil (h : IdOk id) : id ≠ [] := by
  intro he
  exact h.2 (he ▸ List.nil_prefix)

theorem IdOk.isItem (h : IdOk id) : IsItem id := h.1.isItem h.ne_nil

theorem IdOk.append_ne_nil (h : IdOk id) : id ++ t ≠ [] := by simp [h.ne_nil]

theorem IdOk.append_ne_absent (h : IdOk id) : id ++ t ≠ "noextrainfo".toList :=
  fun he => h.2 ⟨t, he⟩

theorem readRequest_requireText (hplain : Plain name) (hne : name ≠ [])
    (habsent : name ≠ "noextrainfo".toList) : readRequest (requireText name) =
      some (.requireData ⟨"scheduler require data".toList, some name, none, []⟩) := by
  have hmm : MatrixMsg.Clean ⟨"scheduler require data".toList, some name, none, []⟩ :=
    MatrixMsg.clean_of_extrainfo (isField_word (by decide))
      (isField_iff.2 ⟨hne, hplain.not_mem (by decide)⟩) habsent
  have htext : requireText name = "scheduler require data&&".toList ++
      (name ++ "&&nocount&&notask&&".toList) := by simp [requireText, mmToStr]
  have hz : '\x00' ∉ requireText name := by
    rw [htext]
    simp only [List.mem_append, not_or]
    exact ⟨by decide, hplain.not_mem (by decide), by decide⟩
  have hhead : (requireText name).head? = some 's' := by simp [htext]
  simp only [readRequest, cstr_eq hz, if_neg (take_ne_clientSendTasks hhead)]
  rw [requireText, strToMm_mmToStr hmm]
  rfl

end Plain

section Bare

variable {text : Str}

theorem bare_of_parents {value : Value} (hclean : value.Clean) (hp : value.parents = [])
    (hn : value.datanamelist = []) : Bare (valueToStr value) := by
  intro value' hv
  rw [strToValue_valueToStr hclean] at hv
  cases hv
  exact ⟨hp, hn⟩

theorem bare_numToStr (n : Int) : Bare (numToStr n) := by
  intro value hv
  rw [strToValue_of_clean (not_mem_numToStr n (by decide) (by decide))] at hv
  cases hv

theorem bare_recordVal {config : Config} {id : Str} {counters : Sched.Counters} {s : Sched}
    (hid : IsItem id) : Bare (valueToStr (s.recordVal config id counters)) :=
  bare_of_parents (recordVal_clean hid) rfl rfl

theorem IsRecord.bare {conf : ClientConf} {k : Int} (h : IsRecord conf k [] text) : Bare text := by
  intro value hv
  obtain ⟨adj, time, _, _, hval⟩ := h.strToValue_eq
  rw [hval] at hv
  cases hv
  exact ⟨rfl, rfl⟩

end Bare

section Defs

variable {n m : Nat}

/-- The scheduler `parent` has run the task whose output is called `name`. -/
def Entry (sys : System n m) (ran : Fin n → Str → Prop) (parent name : Str) : Prop :=
  ∃ j taskid, parent = sys.id j ∧ name = sys.id j ++ taskid ∧ Plain taskid ∧ ran j taskid

/-- The data named in a record are outputs, parent by parent. -/
def Aligned (sys : System n m) (ran : Fin n → Str → Prop) (value : Value) : Prop :=
  List.Forall₂ (Entry sys ran) value.parents value.datanamelist

/-- The text is fit for a record. -/
def Sourced (sys : System n m) (ran : Fin n → Str → Prop) (text : Str) : Prop :=
  ∀ value, strToValue text = some value → Aligned sys ran value

/-- A completed task has been run. -/
structure ItemData (sys : System n m) (ran : Fin n → Str → Prop) (i : Fin n)
    (item : CmpQueueItem) : Prop where
  key : item.key = sys.id i ++ item.taskId
  taskId : Plain item.taskId
  ran : ran i item.taskId
  dataSize : IsInt item.dataSize

def ExecData (sys : System n m) (ran : Fin n → Str → Prop) (i : Fin n) : Exec → Prop
  | .popped _ => True
  | .fetching tm value _ _ => Aligned sys ran value ∧ Plain tm.taskid ∧
    IsInt (value.outputsize.getD 0)
  | .requiring tm value _ _ => Aligned sys ran value ∧ Plain tm.taskid ∧
    IsInt (value.outputsize.getD 0)
  | .stored tm value key => ItemData sys ran i ⟨tm.taskid, key, value.outputsize.getD 0⟩

def NotifyData (sys : System n m) (ran : Fin n → Str → Prop) (i : Fin n) : Notify → Prop
  | .idle => True
  | .popped item => ItemData sys ran i item
  | .notifying item _ _ => ItemData sys ran i item

def PhaseData (sys : System n m) (ran : Fin n → Str → Prop) : ClientPhase n → Prop
  | .inserting todo => ∀ p ∈ todo, Plain p.1 ∧ Bare p.2
  | .looked tm value _ => Plain tm.taskid ∧ Sourced sys ran (valueToStr value)
  | _ => True

/-- What the threads of a scheduler hold refers to tasks that have been run. -/
structure WorkData (sys : System n m) (ran : Fin n → Str → Prop) (i : Fin n) (s : Sched) :
    Prop where
  loops : LoopsOk (sys.id i) s
  exec : ∀ x ∈ s.exec, ExecData sys ran i x
  complete : ∀ item ∈ s.completeQueue, ItemData sys ran i item
  notify : NotifyData sys ran i s.notify

/-- A state, and the outputs of the tasks that have been run. -/
structure Traced (n m : Nat) where
  st : State n m
  outputs : List (Output n) := []

namespace Traced

def step (sys : System n m) (t : Traced n m) (a : Act n m) : Option (Traced n m) :=
  (t.st.step sys a).map fun st => ⟨st, t.outputs ++ (t.st.output a).toList⟩

def Ran (t : Traced n m) (i : Fin n) (taskid : Str) : Prop :=
  ∃ result, ⟨i, taskid, result⟩ ∈ t.outputs

/-- Everything recorded has been run, and what has been run is kept. -/
structure DataOk (sys : System n m) (t : Traced n m) : Prop where
  key : ∀ key text, t.st.store key = some text → Plain key
  record : ∀ key text, t.st.store key = some text → Sourced sys t.Ran text
  client : ∀ c, PhaseData sys t.Ran (t.st.client c)
  sched : ∀ i, WorkData sys t.Ran i (t.st.sched i)
  kept : ∀ i taskid, t.Ran i taskid →
    ((t.st.sched i).localData (sys.id i ++ taskid)).isSome

end Traced

/-- A write of a counter or of the status of a scheduler. -/
def WritesBare (store store' : Store) : Prop :=
  store' = store ∨ ∃ key text, Plain key ∧ Bare text ∧ store' = store.insert key text

end Defs

section Mono

variable {n m : Nat} {sys : System n m} {ran ran' : Fin n → Str → Prop} {i : Fin n}

theorem Aligned.mono {value : Value} (h : Aligned sys ran value) (hg : ran ≤ ran') :
    Aligned sys ran' value := by
  apply List.Forall₂.imp _ h
  intro parent name he
  obtain ⟨j, taskid, hp, hn, hplain, hran⟩ := he
  exact ⟨j, taskid, hp, hn, hplain, hg j taskid hran⟩

theorem Aligned.entry {value : Value} {k : Nat} {parent : Str} (h : Aligned sys ran value)
    (hk : value.parents[k]? = some parent) :
    ∃ name, value.datanamelist[k]? = some name ∧ Entry sys ran parent name := by
  obtain ⟨hlen, hall⟩ := List.forall₂_iff_get.1 h
  obtain ⟨hlt, rfl⟩ := List.getElem?_eq_some_iff.1 hk
  exact ⟨_, List.getElem?_eq_getElem (hlen ▸ hlt), hall k hlt (hlen ▸ hlt)⟩

theorem Sourced.mono {text : Str} (h : Sourced sys ran text) (hg : ran ≤ ran') :
    Sourced sys ran' text :=
  fun value hv => (h value hv).mono hg

theorem ItemData.mono {item : CmpQueueItem} (h : ItemData sys ran i item)
    (hg : ran ≤ ran') : ItemData sys ran' i item :=
  ⟨h.key, h.taskId, hg i _ h.ran, h.dataSize⟩

theorem ExecData.mono {x : Exec} (h : ExecData sys ran i x) (hg : ran ≤ ran') :
    ExecData sys ran' i x := by
  cases x with
  | popped tm => trivial
  | fetching tm value k d => exact ⟨h.1.mono hg, h.2⟩
  | requiring tm value k d => exact ⟨h.1.mono hg, h.2⟩
  | stored tm value key => exact ItemData.mono h hg

theorem NotifyData.mono {notify : Notify} (h : NotifyData sys ran i notify)
    (hg : ran ≤ ran') : NotifyData sys ran' i notify := by
  cases notify with
  | idle => trivial
  | popped item => exact ItemData.mono h hg
  | notifying item todo r => exact ItemData.mono h hg

theorem PhaseData.mono {phase : ClientPhase n} (h : PhaseData sys ran phase)
    (hg : ran ≤ ran') : PhaseData sys ran' phase := by
  cases phase with
  | looked tm value todo => exact ⟨h.1, h.2.mono hg⟩
  | inserting todo => exact h
  | waiting => trivial
  | updating todo => trivial
  | sending todo => trivial

theorem WorkData.mono {s : Sched} (h : WorkData sys ran i s) (hg : ran ≤ ran') :
    WorkData sys ran' i s where
  loops := h.loops
  exec := fun x hx => (h.exec x hx).mono hg
  complete := fun item hitem => (h.complete item hitem).mono hg
  notify := h.notify.mono hg

theorem Bare.sourced {text : Str} (h : Bare text) : Sourced sys ran text := by
  intro value hv
  obtain ⟨hp, hn⟩ := h value hv
  rw [Aligned, hp, hn]
  exact .nil

theorem Sourced.notify {item : CmpQueueItem} {old new : Str} (h : Sourced sys ran old)
    (hid : IdOk (sys.id i)) (hitem : ItemData sys ran i item)
    (hnew : notifyAttempt (sys.id i) item old = some new) : Sourced sys ran new := by
  obtain ⟨childVal, hval, hnew⟩ := Option.bind_eq_some_iff.1 hnew
  rw [Option.ite_none_right_eq_some] at hnew
  obtain rfl := Option.some.inj hnew.2
  have hold := clean_of_strToValue hval
  have hkey : IsItem item.key := by
    rw [hitem.key]
    exact (hid.1.append hitem.taskId).isItem hid.append_ne_nil
  have hclean : (addParent (sys.id i) item childVal).Clean :=
    { hold with
      indegree := by
        intro n hn
        cases hn
        exact isLong_toInt64 _
      parents := by
        intro s hs
        rcases List.mem_append.1 hs with hs | hs
        · exact hold.parents s hs
        · rw [List.mem_singleton.1 hs]
          exact hid.isItem
      datanamelist := by
        intro s hs
        rcases List.mem_append.1 hs with hs | hs
        · exact hold.datanamelist s hs
        · rw [List.mem_singleton.1 hs]
          exact hkey
      datasize := by
        intro n hn
        rcases List.mem_append.1 hn with hn | hn
        · exact hold.datasize n hn
        · rw [List.mem_singleton.1 hn]
          exact hitem.dataSize.isLong
      alldatasize := by
        intro n hn
        cases hn
        exact isLong_toInt64 _ }
  intro value hv
  rw [strToValue_valueToStr hclean] at hv
  cases hv
  have hentry : Entry sys ran (sys.id i) item.key :=
    ⟨i, item.taskId, rfl, hitem.key, hitem.taskId, hitem.ran⟩
  exact List.rel_append (h childVal hval) (.cons hentry .nil)

theorem Sourced.setSubmittime {text : Str} {value : Value} (h : Sourced sys ran text)
    (hv : strToValue text = some value) (time : Int) :
    Sourced sys ran (valueToStr { value with submittime := some (toInt64 time) }) := by
  have hclean : Value.Clean { value with submittime := some (toInt64 time) } :=
    { clean_of_strToValue hv with
      submittime := by
        intro n hn
        cases hn
        exact isLong_toInt64 _ }
  intro value' hv'
  rw [strToValue_valueToStr hclean] at hv'
  cases hv'
  exact h value hv

theorem isSome_insertNew {localData : Str → Option Str} {name key piece : Str}
    (h : (localData name).isSome) : (insertNew localData key piece name).isSome := by
  unfold insertNew
  split
  · exact h
  · by_cases he : name = key
    · subst he
      simp
    · rwa [Function.update_of_ne he]

theorem isSome_insertNew_self (localData : Str → Option Str) (key piece : Str) :
    (insertNew localData key piece key).isSome := by
  unfold insertNew
  split
  · assumption
  · simp

end Mono

section Steps

variable {n m : Nat} {sys : System n m} {ran ran' : Fin n → Str → Prop} {i : Fin n} {env : Env}
  {s s' : Sched} {store : Store}

theorem ExecNext.grows {localData localData' : Str → Option Str} {x y : Exec}
    (h : ExecNext env localData x y localData') (name : Str) (hs : (localData name).isSome) :
    (localData' name).isSome := by
  cases h with
  | lookup _ => exact hs
  | skip _ _ => exact hs
  | fetch _ _ _ _ _ => exact hs
  | require _ _ => exact hs
  | receive _ _ _ =>
    split
    · exact isSome_insertNew hs
    · exact hs
  | run _ => exact isSome_insertNew hs

theorem ExecStep.grows {localData localData' : Str → Option Str} {l l' : List Exec}
    (h : ExecStep env l localData l' localData') (name : Str) (hs : (localData name).isSome) :
    (localData' name).isSome := by
  cases h with
  | same => exact hs
  | pop tm => exact hs
  | next _ hxy => exact hxy.grows name hs

theorem ExecData.next {localData localData' : Str → Option Str} {x y : Exec}
    (hid : env.id = sys.id i)
    (hstore : ∀ key text, env.store key = some text → Plain key ∧ Sourced sys ran text)
    (hran : ∀ taskid result, env.ran taskid result → ran i taskid)
    (hx : ExecData sys ran i x) (h : ExecNext env localData x y localData') :
    ExecData sys ran i y := by
  cases h with
  | lookup hv =>
    obtain ⟨text, htext, hval⟩ := eq_some_of_strToValue hv
    obtain ⟨hplain, hsourced⟩ := hstore _ text htext
    exact ⟨hsourced _ hval, hplain, isInt_outputsize hval⟩
  | skip _ _ => exact hx
  | fetch _ _ _ _ _ => exact hx
  | require _ _ => exact hx
  | receive _ _ _ => exact hx
  | run hr => exact ⟨by rw [hid], hx.2.1, hran _ _ hr, hx.2.2⟩

theorem WorkData.kept (h : WorkData sys ran i s) (hid : env.id = sys.id i)
    (hstore : ∀ key text, env.store key = some text → Plain key ∧ Sourced sys ran text)
    (hg : ran ≤ ran') (hran : ∀ taskid result, env.ran taskid result → ran' i taskid)
    (hk : Kept env s s') : WorkData sys ran' i s' where
  loops := h.loops.kept hk
  exec := by
    have hstore' : ∀ key text, env.store key = some text → Plain key ∧ Sourced sys ran' text :=
      fun key text ht => ⟨(hstore key text ht).1, (hstore key text ht).2.mono hg⟩
    exact hk.exec.forall_mem (fun _ => trivial) (fun _ _ _ => ExecData.next hid hstore' hran)
      fun x hx => (h.exec x hx).mono hg
  complete := by
    rw [hk.completeQueue]
    exact fun item hitem => (h.complete item hitem).mono hg
  notify := by
    rw [hk.notify]
    exact h.notify.mono hg

theorem WorkData.progress {eff : Effect} (h : WorkData sys ran i s)
    (hp : Progress WritesBare (sys.id i) store s eff) : WorkData sys ran i eff.sched := by
  have hloops := h.loops.progress hp
  have hnotify := h.notify
  cases hp with
  | other _ _ _ => exact ⟨hloops, h.exec, h.complete, h.notify⟩
  | finish hexec =>
    refine ⟨hloops, fun x hx => h.exec x (List.mem_of_mem_eraseIdx hx), ?_, h.notify⟩
    intro item hitem
    rcases List.mem_append.1 hitem with hitem | hitem
    · exact h.complete item hitem
    · rw [List.mem_singleton.1 hitem]
      exact h.exec _ (List.mem_of_getElem? hexec)
  | popComplete _ hqueue =>
    have hall := h.complete
    rw [hqueue] at hall
    exact ⟨hloops, h.exec, fun item hitem => hall item (List.mem_cons_of_mem _ hitem),
      hall _ List.mem_cons_self⟩
  | lookupChildren hpopped _ =>
    rw [hpopped] at hnotify
    exact ⟨hloops, h.exec, h.complete, hnotify⟩
  | leave _ => exact ⟨hloops, h.exec, h.complete, trivial⟩
  | retry he _ =>
    rw [he] at hnotify
    exact ⟨hloops, h.exec, h.complete, hnotify⟩
  | land he _ _ =>
    rw [he] at hnotify
    exact ⟨hloops, h.exec, h.complete, hnotify⟩

theorem Progress.localData {Writes : Store → Store → Prop} {id : Str} {eff : Effect}
    (h : Progress Writes id store s eff) : eff.sched.localData = s.localData := by
  cases h <;> rfl

theorem sourced_insert {key text : Str}
    (hstore : ∀ key text, store key = some text → Plain key ∧ Sourced sys ran text)
    (hk : Plain key) (ht : Sourced sys ran text) (key' text' : Str)
    (h : store.insert key text key' = some text') : Plain key' ∧ Sourced sys ran text' := by
  by_cases he : key' = key
  · subst he
    rw [Store.insert_self] at h
    cases h
    exact ⟨hk, ht⟩
  · rw [Store.insert_of_ne he] at h
    exact hstore key' text' h

theorem sourced_progress {eff : Effect}
    (hstore : ∀ key text, store key = some text → Plain key ∧ Sourced sys ran text)
    (hid : IdOk (sys.id i)) (h : WorkData sys ran i s)
    (hp : Progress WritesBare (sys.id i) store s eff) (key text : Str)
    (ht : eff.store key = some text) : Plain key ∧ Sourced sys ran text := by
  have hitem := h.notify
  cases hp with
  | other hw _ _ =>
    rcases hw with rfl | ⟨key', text', hk, hbare, rfl⟩
    · exact hstore key text ht
    · exact sourced_insert hstore hk hbare.sourced key text ht
  | finish _ => exact hstore key text ht
  | popComplete _ _ => exact hstore key text ht
  | lookupChildren _ _ => exact hstore key text ht
  | leave _ => exact hstore key text ht
  | retry _ _ => exact hstore key text ht
  | land hnotify hold hnew =>
    rw [hnotify] at hitem
    obtain ⟨hplain, hsourced⟩ := hstore _ _ hold
    exact sourced_insert hstore hplain (hsourced.notify hid hitem hnew) key text ht

theorem sourced_clientNext {conf : ClientConf} {store' : Store} {phase phase' : ClientPhase n}
    (hstore : ∀ key text, store key = some text → Plain key ∧ Sourced sys ran text)
    (hphase : PhaseData sys ran phase) (h : ClientNext conf store phase store' phase') :
    (∀ key text, store' key = some text → Plain key ∧ Sourced sys ran text) ∧
      PhaseData sys ran phase' := by
  cases h with
  | begin _ hadj =>
    refine ⟨hstore, fun p hp => ?_⟩
    obtain ⟨⟨k, existList⟩, hmem, rfl⟩ := List.mem_map.1 hp
    exact ⟨plain_taskId _ _, (isRecord_taskInfo hadj hmem).bare⟩
  | insert p todo =>
    obtain ⟨hk, ht⟩ := hphase p List.mem_cons_self
    exact ⟨sourced_insert hstore hk ht.sourced, fun q hq => hphase q (List.mem_cons_of_mem _ hq)⟩
  | inserted _ => exact ⟨hstore, trivial⟩
  | look time hvalue =>
    obtain ⟨text, htext, hval⟩ := eq_some_of_strToValue hvalue
    obtain ⟨hplain, hsourced⟩ := hstore _ text htext
    exact ⟨hstore, hplain, hsourced.setSubmittime hval time⟩
  | update tm value todo => exact ⟨sourced_insert hstore hphase.1 hphase.2, trivial⟩
  | send _ _ => exact ⟨hstore, trivial⟩

end Steps

namespace Traced

variable {n m : Nat} {sys : System n m} {t t' : Traced n m} {i : Fin n} {a : Act n m}

theorem ran_mono {outputs : List (Output n)} {st : State n m} :
    t.Ran ≤ (⟨st, t.outputs ++ outputs⟩ : Traced n m).Ran := by
  intro i taskid h
  obtain ⟨result, hmem⟩ := h
  exact ⟨result, List.mem_append_left _ hmem⟩

theorem localData_apply {st : State n m} {eff : Effect}
    (h : eff.sched.localData = (st.sched i).localData) (k : Fin n) :
    ((st.apply i eff).sched k).localData = (st.sched k).localData := by
  by_cases hk : k = i
  · subst hk
    rw [State.apply_self, h]
  · rw [State.apply_of_ne hk]

/-- What a step stores of the output of a task. -/
theorem kept_of_output {st st' : State n m} {o : Output n} (ho : st.output a = some o)
    (h : st.step sys a = some st') :
    ((st'.sched o.sched).localData (sys.id o.sched ++ o.taskid)).isSome := by
  unfold State.output at ho
  split at ho
  · next i e result =>
    obtain ⟨x, hx, rfl⟩ := Option.map_eq_some_iff.1 ho
    obtain ⟨eff, heff, rfl⟩ := Option.map_eq_some_iff.1 h
    rw [Sched.step, Option.ite_none_right_eq_some] at heff
    obtain ⟨s', hs, rfl⟩ := Option.map_eq_some_iff.1 heff.2
    obtain ⟨tm, value, data, hexec, rfl⟩ := Sched.storeResult_spec hs
    cases hx.symm.trans hexec
    simp only [State.apply, Function.update_self, Exec.task]
    exact isSome_insertNew_self ..
  · cases ho

theorem DataOk.store (h : t.DataOk sys) (key text : Str) (ht : t.st.store key = some text) :
    Plain key ∧ Sourced sys t.Ran text :=
  ⟨h.key key text ht, h.record key text ht⟩

theorem DataOk.step (h : t.DataOk sys) (hid : ∀ i, IdOk (sys.id i))
    (hs : t.step sys a = some t') : t'.DataOk sys := by
  obtain ⟨st', hst, rfl⟩ := Option.map_eq_some_iff.1 hs
  have hg : t.Ran ≤ (⟨st', t.outputs ++ (t.st.output a).toList⟩ : Traced n m).Ran := ran_mono
  -- the output of this step is kept, and no step loses what is kept
  have hkept (hgrow : ∀ i name, ((t.st.sched i).localData name).isSome →
        ((st'.sched i).localData name).isSome) (i : Fin n) (taskid : Str)
      (hr : (⟨st', t.outputs ++ (t.st.output a).toList⟩ : Traced n m).Ran i taskid) :
      ((st'.sched i).localData (sys.id i ++ taskid)).isSome := by
    obtain ⟨result, hmem⟩ := hr
    rcases List.mem_append.1 hmem with hmem | hmem
    · exact hgrow i _ (h.kept i taskid ⟨result, hmem⟩)
    · exact kept_of_output (Option.mem_toList.1 hmem) hst
  rcases State.step_cases hst with
    hq | ⟨i, b, eff, rfl, hb, heff, rfl⟩ | ⟨c, store, phase, hp, rfl⟩
  · refine ⟨?_, ?_, ?_, ?_, hkept fun i name => (hq.sched i).exec.grows name⟩
    · rw [hq.store]
      exact h.key
    · rw [hq.store]
      exact fun key text ht => (h.record key text ht).mono hg
    · intro c
      rcases hq.client c with he | ⟨todo, todo', _, he⟩
      · rw [he]
        exact (h.client c).mono hg
      · rw [he]
        trivial
    · intro i
      apply (h.sched i).kept rfl h.store hg _ (hq.sched i)
      intro taskid result hr
      exact ⟨result, List.mem_append_right _ (Option.mem_toList.2 hr)⟩
  · have hprog : Progress WritesBare (sys.id i) t.st.store (t.st.sched i) eff := by
      apply progress_of_act (h.sched i).loops (.inl rfl) _ _ hb heff
      · intro key hkey n
        have hplain : ∀ key ∈ counterKeys, Plain key := by decide
        exact .inr ⟨key, numToStr n, hplain key hkey, bare_numToStr n, rfl⟩
      · intro counters _
        exact .inr ⟨_, _, (hid i).1, bare_recordVal (hid i).isItem, rfl⟩
    have hstore := sourced_progress h.store (hid i) (h.sched i) hprog
    refine ⟨fun key text ht => (hstore key text ht).1,
      fun key text ht => (hstore key text ht).2.mono hg, fun c => (h.client c).mono hg, ?_, ?_⟩
    · intro k
      by_cases hk : k = i
      · subst hk
        rw [State.apply_self]
        exact ((h.sched k).progress hprog).mono hg
      · rw [State.apply_of_ne hk]
        exact (h.sched k).mono hg
    · apply hkept
      intro k name hs
      rwa [localData_apply hprog.localData]
  · obtain ⟨hstore, hphase⟩ := sourced_clientNext h.store (h.client c) hp
    refine ⟨fun key text ht => (hstore key text ht).1,
      fun key text ht => (hstore key text ht).2.mono hg, ?_, fun i => (h.sched i).mono hg,
      hkept fun _ _ hs => hs⟩
    intro d
    by_cases hd : d = c
    · subst hd
      simpa only [State.setClient, Function.update_self] using hphase.mono hg
    · simpa only [State.setClient, Function.update_of_ne hd] using (h.client d).mono hg

/-- The outputs along a run. -/
theorem run_of_state {st₀ st : State n m} {acts : List (Act n m)} (outputs : List (Output n))
    (h : runActs (State.step sys) st₀ acts = some st) :
    ∃ outputs', runActs (Traced.step sys) ⟨st₀, outputs⟩ acts = some ⟨st, outputs'⟩ := by
  induction acts generalizing st₀ outputs with
  | nil =>
    cases h
    exact ⟨outputs, rfl⟩
  | cons a acts ih =>
    obtain ⟨st₁, h₁, hrest⟩ := Option.bind_eq_some_iff.1 h
    obtain ⟨outputs', hrun⟩ := ih (outputs ++ (st₀.output a).toList) hrest
    refine ⟨outputs', ?_⟩
    rw [runActs, Traced.step, h₁, Option.map_some, Option.bind_some, hrun]

end Traced

namespace State

variable {n m : Nat} {sys : System n m} {st : State n m}

/-- The records may come from any client, with any sizes. No task has been run yet. -/
structure Fresh (st : State n m) : Prop where
  key : ∀ key text, st.store key = some text → Plain key
  record : ∀ key text, st.store key = some text → Bare text
  client : ∀ c, st.client c = .waiting ∨ ∃ todo, st.client c = .sending todo
  boot : ∀ i, (st.sched i).boot = Boot.start i ∨ (st.sched i).boot = .running
  serving : ∀ i, (st.sched i).serving = .idle
  exec : ∀ i, (st.sched i).exec = []
  completeQueue : ∀ i, (st.sched i).completeQueue = []
  notify : ∀ i, (st.sched i).notify = .idle
  localData : ∀ i name, (st.sched i).localData name = none

theorem fresh_start (n m : Nat) : (start n m).Fresh where
  key := nofun
  record := nofun
  client := fun _ => .inl rfl
  boot := fun _ => .inl rfl
  serving := fun _ => rfl
  exec := fun _ => rfl
  completeQueue := fun _ => rfl
  notify := fun _ => rfl
  localData := fun _ _ => rfl

theorem Fresh.dataOk (h : st.Fresh) : (⟨st, []⟩ : Traced n m).DataOk sys where
  key := h.key
  record := fun key text ht => (h.record key text ht).sourced
  client := by
    intro c
    rcases h.client c with he | ⟨todo, he⟩
    · rw [he]
      trivial
    · rw [he]
      trivial
  sched := by
    intro i
    have hboot : BootOk (st.sched i).boot := by
      rcases h.boot i with he | he
      · rw [he, Boot.start]
        split
        · exact List.suffix_refl _
        · trivial
      · rw [he]
        trivial
    exact
      { loops := ⟨hboot, by rw [h.serving i]; trivial, by simp [h.notify i]⟩
        exec := by simp [h.exec i]
        complete := by simp [h.completeQueue i]
        notify := by rw [h.notify i]; trivial }
  kept := fun _ _ hr => nomatch hr.choose_spec

/-- The data named in the records is kept by the schedulers named there. A core finds the data of
its own scheduler, and the other schedulers find the data they are asked for. -/
structure Available (sys : System n m) (st : State n m) : Prop where
  record : ∀ key value parent, ∀ k : Nat, strToValue (st.store.lookup key) = some value →
    value.parents[k]? = some parent → ∃ name j, value.datanamelist[k]? = some name ∧
      sys.id j = parent ∧ ((st.sched j).localData name).isSome
  here : ∀ i tm value data, ∀ e k : Nat, (st.sched i).exec[e]? = some (.fetching tm value k data) →
    value.parents[k]? = some (sys.id i) → ∃ name, value.datanamelist[k]? = some name ∧
      ((st.sched i).localData name).isSome
  asked : ∀ i j tm value data, ∀ e k : Nat,
    (st.sched i).exec[e]? = some (.requiring tm value k data) →
    value.parents[k]? = some (sys.id j) → ∃ name mm, value.datanamelist[k]? = some name ∧
      readRequest (requireText name) = some (.requireData mm) ∧
      ((st.sched j).localData (mm.extrainfo.getD [])).isSome

end State

namespace Traced

variable {n m : Nat} {sys : System n m} {t : Traced n m}

theorem dataOk_run {st₀ : State n m} {acts : List (Act n m)} (hid : ∀ i, IdOk (sys.id i))
    (h₀ : st₀.Fresh) (hrun : runActs (Traced.step sys) ⟨st₀, []⟩ acts = some t) : t.DataOk sys :=
  runActs_invariant (P := fun t => t.DataOk sys) (fun _ _ _ hs h => h.step hid hs) hrun h₀.dataOk

theorem DataOk.available (h : t.DataOk sys) (hid : ∀ i, IdOk (sys.id i))
    (hinj : Function.Injective sys.id) : t.st.Available sys where
  record := by
    intro key value parent k hv hk
    obtain ⟨text, htext, hval⟩ := eq_some_of_strToValue hv
    obtain ⟨name, hname, j, taskid, hparent, rfl, _, hran⟩ :=
      (h.record key text htext value hval).entry hk
    exact ⟨_, j, hname, hparent.symm, h.kept j taskid hran⟩
  here := by
    intro i tm value data e k he hk
    obtain ⟨hal, _⟩ := (h.sched i).exec _ (List.mem_of_getElem? he)
    obtain ⟨name, hname, j, taskid, hparent, rfl, _, hran⟩ := hal.entry hk
    obtain rfl := hinj hparent
    exact ⟨_, hname, h.kept i taskid hran⟩
  asked := by
    intro i j tm value data e k he hk
    obtain ⟨hal, _⟩ := (h.sched i).exec _ (List.mem_of_getElem? he)
    obtain ⟨name, hname, j', taskid, hparent, rfl, hplain, hran⟩ := hal.entry hk
    obtain rfl := hinj hparent
    exact ⟨_, _, hname, readRequest_requireText ((hid j).1.append hplain) (hid j).append_ne_nil
      (hid j).append_ne_absent, h.kept j taskid hran⟩

end Traced

/-- In every state of every run, everything recorded is available. -/
theorem run_available {n m : Nat} (sys : System n m) (hid : ∀ i, IdOk (sys.id i))
    (hinj : Function.Injective sys.id) (st₀ : State n m) (h₀ : st₀.Fresh) (acts : List (Act n m))
    (st : State n m) (hrun : runActs (State.step sys) st₀ acts = some st) : st.Available sys := by
  obtain ⟨outputs, hrun⟩ := Traced.run_of_state [] hrun
  exact (Traced.dataOk_run hid h₀ hrun).available hid hinj

theorem run_available_chain :
    ∃ st, runActs (State.step chainSystem) (State.start 1 1) chainRun = some st ∧
      st.Available chainSystem := by
  have hsome : (runActs (State.step chainSystem) (State.start 1 1) chainRun).isSome = true := by
    decide +kernel
  obtain ⟨st, hrun⟩ := Option.isSome_iff_exists.1 hsome
  exact ⟨st, hrun, run_available chainSystem (by decide) (Function.injective_of_subsingleton _)
    (State.start 1 1) (State.fresh_start 1 1) chainRun st hrun⟩

/-- The chain on a scheduler whose id has a byte that separates the parents in a record. -/
def splitSystem : System 1 1 := soloSystem "a?b".toList chainConf

def splitRun : List (Act 1 1) := loadRun splitSystem ++ checkRun ++ execRun 0 1

theorem not_run_available_split :
    ∃ st, runActs (State.step splitSystem) (State.start 1 1) splitRun = some st ∧
      ¬ st.Available splitSystem := by
  have hsome : (runActs (State.step splitSystem) (State.start 1 1) splitRun).any (fun st =>
      (strToValue (st.store.lookup "01".toList)).any fun value =>
        value.parents[0]? = some "a".toList) = true := by
    decide +kernel
  obtain ⟨st, hrun, hst⟩ := (Option.any_eq_true _ _).1 hsome
  obtain ⟨value, hvalue, hparent⟩ := (Option.any_eq_true _ _).1 hst
  refine ⟨st, hrun, fun h => ?_⟩
  obtain ⟨name, j, _, hid, _⟩ := h.record _ value _ 0 hvalue (of_decide_eq_true hparent)
  have hne : ∀ j, splitSystem.id j ≠ "a".toList := by decide
  exact hne j hid

end MatrixZht
