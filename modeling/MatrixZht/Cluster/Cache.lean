import MatrixZht.Cluster.Data

namespace MatrixZht
open Lib

section Defs

variable {n m : Nat}

/-- The key of an output. -/
def Output.key (sys : System n m) (o : Output n) : Str := sys.id o.sched ++ o.taskid

/-- What the execution of the task with the key `name` on the scheduler `parent` has printed. -/
def outputOf (sys : System n m) (outputs : List (Output n)) (parent name : Str) : Option Str :=
  (outputs.find? fun o => sys.id o.sched = parent ∧ o.key sys = name).map (·.result)

/-- The outputs of the first `i` parents, in the order of the record and without the empty ones. -/
def parentData (sys : System n m) (outputs : List (Output n)) (value : Value) : Nat → Option Str
  | 0 => some []
  | i + 1 =>
    (parentData sys outputs value i).bind fun data =>
      value.datasize[i]?.bind fun datasize =>
        if datasize > 0 then
          value.parents[i]?.bind fun parent =>
            value.datanamelist[i]?.bind fun name =>
              (outputOf sys outputs parent name).map (data ++ ·)
        else some data

/-- Different executions keep their outputs under different keys. -/
def KeysApart (sys : System n m) (outputs : List (Output n)) : Prop :=
  ∀ o ∈ outputs, ∀ o' ∈ outputs, o.key sys = o'.key sys → o.sched = o'.sched ∧ o.taskid = o'.taskid

instance (sys : System n m) (outputs : List (Output n)) : Decidable (KeysApart sys outputs) :=
  inferInstanceAs (Decidable (∀ o ∈ outputs, ∀ o' ∈ outputs, _ → _))

/-- Every output is carried unchanged by a reply. -/
def AllFetchable (outputs : List (Output n)) : Prop :=
  ∀ o ∈ outputs, Fetchable o.result ∧ '\x00' ∉ o.result

instance (outputs : List (Output n)) : Decidable (AllFetchable outputs) :=
  inferInstanceAs (Decidable (∀ o ∈ outputs, _))

/-- The data that the cores have assembled are the outputs of the parents. -/
def Traced.Assembled (sys : System n m) (t : Traced n m) : Prop :=
  ∀ i tm value data, ∀ k : Nat,
    .fetching tm value k data ∈ (t.st.sched i).exec →
      parentData sys t.outputs value k = some data

/-- What a core has assembled, and that it requires a piece of data only where there is one. -/
def ExecCache (sys : System n m) (outputs : List (Output n)) : Exec → Prop
  | .fetching _ value k data => parentData sys outputs value k = some data
  | .requiring _ value k data => parentData sys outputs value k = some data ∧
    ∃ datasize, value.datasize[k]? = some datasize ∧ 0 < datasize
  | _ => True

/-- What scheduler `i` has under a key is the output of an execution the key stands for, one of
its own unless there is a cache. -/
def Genuine (sys : System n m) (outputs : List (Output n)) (i : Fin n) (name dataPiece : Str) :
    Prop :=
  ∃ o ∈ outputs, o.key sys = name ∧ (o.sched = i ∨ sys.config.cache = true) ∧
    outputOf sys outputs (sys.id o.sched) name = some dataPiece

/-- Own and cached data are outputs. -/
structure CacheOk (sys : System n m) (t : Traced n m) : Prop where
  data : ∀ i name dataPiece, (t.st.sched i).localData name = some dataPiece →
    Genuine sys t.outputs i name dataPiece
  exec : ∀ i, ∀ x ∈ (t.st.sched i).exec, ExecCache sys t.outputs x

end Defs

section Outputs

variable {n m : Nat} {sys : System n m} {outputs new : List (Output n)} {i : Fin n}
  {parent name piece : Str} {value : Value} {k : Nat} {data : Str}

theorem outputOf_append (h : outputOf sys outputs parent name = some piece) :
    outputOf sys (outputs ++ new) parent name = some piece := by
  obtain ⟨o, ho, rfl⟩ := Option.map_eq_some_iff.1 h
  rw [outputOf, List.find?_append, ho]
  rfl

theorem outputOf_concat {o : Output n} (h : ∀ o' ∈ outputs, sys.id o'.sched = sys.id o.sched →
    o'.key sys ≠ o.key sys) :
    outputOf sys (outputs ++ [o]) (sys.id o.sched) (o.key sys) = some o.result := by
  have hfirst : outputs.find? (fun o' => sys.id o'.sched = sys.id o.sched ∧
      o'.key sys = o.key sys) = none := by
    rw [List.find?_eq_none]
    intro o' ho' hkey
    obtain ⟨hsched, hkey⟩ := of_decide_eq_true hkey
    exact h o' ho' hsched hkey
  rw [outputOf, List.find?_append, hfirst]
  simp

theorem mem_of_outputOf (h : outputOf sys outputs parent name = some piece) :
    ∃ o ∈ outputs, o.result = piece := by
  obtain ⟨o, ho, rfl⟩ := Option.map_eq_some_iff.1 h
  exact ⟨o, List.mem_of_find?_eq_some ho, rfl⟩

theorem parentData_append (h : parentData sys outputs value k = some data) :
    parentData sys (outputs ++ new) value k = some data := by
  induction k generalizing data with
  | zero => exact h
  | succ k ih =>
    obtain ⟨data₀, h₀, h⟩ := Option.bind_eq_some_iff.1 h
    obtain ⟨datasize, hsize, h⟩ := Option.bind_eq_some_iff.1 h
    rw [parentData, ih h₀, Option.bind_some, hsize, Option.bind_some]
    by_cases hpos : datasize > 0
    · rw [if_pos hpos] at h ⊢
      obtain ⟨parent, hparent, h⟩ := Option.bind_eq_some_iff.1 h
      obtain ⟨name, hname, h⟩ := Option.bind_eq_some_iff.1 h
      obtain ⟨piece, hpiece, he⟩ := Option.map_eq_some_iff.1 h
      rw [hparent, Option.bind_some, hname, Option.bind_some, outputOf_append hpiece,
        Option.map_some, he]
    · rwa [if_neg hpos] at h ⊢

theorem parentData_skip {datasize : Int} (h : parentData sys outputs value k = some data)
    (hsize : value.datasize[k]? = some datasize) (hle : datasize ≤ 0) :
    parentData sys outputs value (k + 1) = some data := by
  rw [parentData, h, Option.bind_some, hsize, Option.bind_some, if_neg (not_lt.2 hle)]

theorem parentData_fetch {datasize : Int} (h : parentData sys outputs value k = some data)
    (hsize : value.datasize[k]? = some datasize) (hpos : 0 < datasize)
    (hparent : value.parents[k]? = some parent) (hname : value.datanamelist[k]? = some name)
    (hpiece : outputOf sys outputs parent name = some piece) :
    parentData sys outputs value (k + 1) = some (data ++ piece) := by
  rw [parentData, h, Option.bind_some, hsize, Option.bind_some, if_pos hpos, hparent,
    Option.bind_some, hname, Option.bind_some, hpiece, Option.map_some]

theorem ExecCache.append {x : Exec} (h : ExecCache sys outputs x) :
    ExecCache sys (outputs ++ new) x := by
  cases x with
  | fetching tm value k data => exact parentData_append h
  | requiring tm value k data => exact ⟨parentData_append h.1, h.2⟩
  | popped tm => trivial
  | stored tm value key => trivial

theorem Genuine.append (h : Genuine sys outputs i name piece) :
    Genuine sys (outputs ++ new) i name piece := by
  obtain ⟨o, ho, hkey, hown, hout⟩ := h
  exact ⟨o, List.mem_append_left _ ho, hkey, hown, outputOf_append hout⟩

theorem Genuine.outputOf_eq (h : Genuine sys outputs i name piece)
    (hapart : sys.config.cache = true → KeysApart sys outputs) {o : Output n} (ho : o ∈ outputs)
    (hkey : o.key sys = name) (hown : o.sched = i ∨ sys.config.cache = true) :
    outputOf sys outputs (sys.id o.sched) name = some piece := by
  obtain ⟨o', ho', hkey', hown', hout⟩ := h
  have hsched : o.sched = o'.sched := by
    by_cases hcache : sys.config.cache = true
    · exact (hapart hcache o ho o' ho' (hkey.trans hkey'.symm)).1
    · exact (hown.resolve_right hcache).trans (hown'.resolve_right hcache).symm
  rwa [hsched]

theorem genuine_insertNew {localData : Str → Option Str} {key : Str}
    (hdata : ∀ name piece, localData name = some piece → Genuine sys outputs i name piece)
    (hnew : localData key = none → Genuine sys outputs i key piece) (name' piece' : Str)
    (h : insertNew localData key piece name' = some piece') :
    Genuine sys outputs i name' piece' := by
  unfold insertNew at h
  split at h
  · exact hdata name' piece' h
  · next hnone =>
    by_cases he : name' = key
    · subst he
      rw [Function.update_self] at h
      cases h
      exact hnew (by simpa using hnone)
    · rw [Function.update_of_ne he] at h
      exact hdata name' piece' h

theorem KeysApart.of_append (h : KeysApart sys (outputs ++ new)) : KeysApart sys outputs :=
  fun o ho o' ho' => h o (List.mem_append_left _ ho) o' (List.mem_append_left _ ho')

end Outputs

theorem Progress.mem_exec {Writes : Store → Store → Prop} {id : Str} {store : Store} {s : Sched}
    {eff : Effect} (h : Progress Writes id store s eff) : ∀ x ∈ eff.sched.exec, x ∈ s.exec := by
  cases h with
  | finish _ => exact fun x hx => List.mem_of_mem_eraseIdx hx
  | _ => exact fun x hx => hx

section Steps

variable {n m : Nat} {sys : System n m} {t : Traced n m} {out : Option (Output n)} {i : Fin n}

theorem reply_eq_output (hid : ∀ i, IdOk (sys.id i)) (hinj : Function.Injective sys.id)
    (hok : t.DataOk sys) (hcache : CacheOk sys t) (hf : AllFetchable t.outputs)
    {j : Fin n} {name piece : Str} (hentry : Entry sys t.Ran (sys.id j) name)
    (h : (t.st.env sys out i).Replies (sys.id j) name piece) :
    Genuine sys t.outputs j name piece := by
  obtain ⟨localData, mm, reply, reads, mmData, ⟨j₁, hj₁, rfl⟩, hreq, hsend, hcut, hmm, rfl⟩ := h
  obtain ⟨j₂, taskid, hj₂, rfl, hplain, hran⟩ := hentry
  obtain rfl := hinj hj₁
  obtain rfl := hinj hj₂
  rw [readRequest_requireText ((hid _).1.append hplain) (hid _).append_ne_nil
    (hid _).append_ne_absent] at hreq
  cases hreq
  obtain ⟨piece, hpiece⟩ := Option.isSome_iff_exists.1 (hok.kept _ taskid hran)
  have hgen := hcache.data _ _ piece hpiece
  obtain ⟨o, ho, _, _, hout⟩ := hgen
  obtain ⟨o', ho', hresult⟩ := mem_of_outputOf hout
  obtain ⟨hfetch, hz⟩ := hf o' ho'
  rw [hresult] at hfetch hz
  rw [sendData, Option.getD_some, hpiece, Option.getD_some,
    sendBig_eq (by rw [length_dataText]; exact hfetch.short)] at hsend
  cases hsend
  have hrecv : recvData reads [] = some ([] ++ piece) := recvData_of_fetchable hfetch hz hcut
  rw [recvData, hmm, Option.map_some] at hrecv
  obtain rfl : mmData.extrainfo.getD [] = piece := by simpa using hrecv
  exact hcache.data _ _ _ hpiece

theorem Aligned.parent {ran : Fin n → Str → Prop} {value : Value} {k : Nat} {name : Str}
    (h : Aligned sys ran value) (hk : value.datanamelist[k]? = some name) :
    ∃ parent, value.parents[k]? = some parent ∧ Entry sys ran parent name := by
  obtain ⟨hlen, hall⟩ := List.forall₂_iff_get.1 h
  obtain ⟨hlt, rfl⟩ := List.getElem?_eq_some_iff.1 hk
  exact ⟨_, List.getElem?_eq_getElem (hlen ▸ hlt), hall k (hlen ▸ hlt) hlt⟩

theorem Entry.outputOf_eq (hinj : Function.Injective sys.id) {j : Fin n} {name piece : Str}
    (h : Entry sys t.Ran (sys.id j) name)
    (hapart : sys.config.cache = true → KeysApart sys t.outputs)
    (hown : j = i ∨ sys.config.cache = true) (hgen : Genuine sys t.outputs i name piece) :
    outputOf sys t.outputs (sys.id j) name = some piece := by
  obtain ⟨j', taskid, hj, rfl, _, result, hmem⟩ := h
  obtain rfl := hinj hj
  exact hgen.outputOf_eq hapart hmem rfl hown

/-- What a core adds to its data, and a step to the data of its scheduler, are outputs. -/
theorem CacheOk.next (hid : ∀ i, IdOk (sys.id i)) (hinj : Function.Injective sys.id)
    (hok : t.DataOk sys) (hcache : CacheOk sys t) (hf : AllFetchable t.outputs)
    (hapart : sys.config.cache = true → KeysApart sys t.outputs) {x y : Exec}
    {localData' : Str → Option Str} (hx : x ∈ (t.st.sched i).exec)
    (h : ExecNext (t.st.env sys out i) (t.st.sched i).localData x y localData') :
    ExecCache sys (t.outputs ++ out.toList) y ∧ ∀ name piece, localData' name = some piece →
      Genuine sys (t.outputs ++ out.toList) i name piece := by
  have hdata (name piece : Str) (h : (t.st.sched i).localData name = some piece) :
      Genuine sys (t.outputs ++ out.toList) i name piece := (hcache.data i name piece h).append
  have hexec := hcache.exec i x hx
  have hwork := (hok.sched i).exec x hx
  cases h with
  | lookup _ => exact ⟨rfl, hdata⟩
  | skip hsize hle => exact ⟨parentData_append (parentData_skip hexec hsize hle), hdata⟩
  | fetch hsize hpos hname hown hpiece =>
    obtain ⟨parent, hparent, hentry⟩ := hwork.1.parent hname
    obtain ⟨j, _, rfl, _⟩ := id hentry
    have hown : j = i ∨ sys.config.cache = true := by
      apply hown.imp_left
      intro he
      exact hinj (Option.some.inj (hparent.symm.trans he))
    have hout := hentry.outputOf_eq hinj hapart hown (hcache.data i _ _ hpiece)
    exact ⟨parentData_append (parentData_fetch hexec hsize hpos hparent hname hout), hdata⟩
  | require hsize hpos => exact ⟨⟨parentData_append hexec, _, hsize, hpos⟩, hdata⟩
  | receive hparent hname hreply =>
    obtain ⟨parent, hparent', hentry⟩ := hwork.1.parent hname
    obtain rfl := Option.some.inj (hparent.symm.trans hparent')
    obtain ⟨j, _, rfl, _⟩ := id hentry
    have hgen := reply_eq_output hid hinj hok hcache hf hentry hreply
    obtain ⟨hexec, datasize, hsize, hpos⟩ := hexec
    refine ⟨parentData_append (parentData_fetch hexec hsize hpos hparent hname
      (hentry.outputOf_eq hinj hapart (.inl rfl) hgen)), ?_⟩
    intro name piece hlocal
    split at hlocal
    · next hon =>
      refine genuine_insertNew hdata (fun _ => ?_) name piece hlocal
      obtain ⟨o, ho, hkey, _, hout⟩ := hgen
      exact Genuine.append ⟨o, ho, hkey, .inr hon, hout⟩
    · exact hdata name piece hlocal
  | @run tm value k data result hran =>
    cases hran
    refine ⟨trivial, genuine_insertNew hdata fun hnone => ?_⟩
    refine ⟨⟨i, tm.taskid, result⟩, List.mem_append_right _ (by simp), rfl, .inl rfl, ?_⟩
    apply outputOf_concat
    -- an earlier output of the task would still be kept
    intro o ho hsched hkey
    have hsched : o.sched = i := hinj hsched
    have hkept := hok.kept o.sched o.taskid ⟨o.result, ho⟩
    change o.key sys = sys.id i ++ tm.taskid at hkey
    change ((t.st.sched o.sched).localData (o.key sys)).isSome = true at hkept
    change (t.st.sched i).localData (sys.id i ++ tm.taskid) = none at hnone
    rw [hkey, hsched, hnone] at hkept
    cases hkept

end Steps

namespace Traced

variable {n m : Nat} {sys : System n m} {t t' : Traced n m} {a : Act n m}

theorem CacheOk.step (hid : ∀ i, IdOk (sys.id i)) (hinj : Function.Injective sys.id)
    (hok : t.DataOk sys) (hcache : CacheOk sys t) (hf : AllFetchable t.outputs)
    (hapart : sys.config.cache = true → KeysApart sys t.outputs)
    (hs : t.step sys a = some t') : CacheOk sys t' := by
  obtain ⟨st', hst, rfl⟩ := Option.map_eq_some_iff.1 hs
  have hsame {i : Fin n} {s : Sched} (hl : s.localData = (t.st.sched i).localData)
      (he : ∀ x ∈ s.exec, x ∈ (t.st.sched i).exec) :
      (∀ name piece, s.localData name = some piece →
        Genuine sys (t.outputs ++ (t.st.output a).toList) i name piece) ∧
      ∀ x ∈ s.exec, ExecCache sys (t.outputs ++ (t.st.output a).toList) x := by
    rw [hl]
    exact ⟨fun name piece h => (hcache.data i name piece h).append,
      fun x hx => (hcache.exec i x (he x hx)).append⟩
  have hall (i : Fin n) : (∀ name piece, (st'.sched i).localData name = some piece →
        Genuine sys (t.outputs ++ (t.st.output a).toList) i name piece) ∧
      ∀ x ∈ (st'.sched i).exec, ExecCache sys (t.outputs ++ (t.st.output a).toList) x := by
    rcases State.step_cases hst with
      hq | ⟨k, b, eff, rfl, hb, heff, rfl⟩ | ⟨c, store, phase, hp, rfl⟩
    · have hstep := (hq.sched i).exec
      generalize (st'.sched i).exec = l' at hstep ⊢
      generalize (st'.sched i).localData = localData' at hstep ⊢
      cases hstep with
      | same => exact hsame rfl fun _ hx => hx
      | pop tm =>
        refine ⟨(hsame rfl fun _ hx => hx).1, fun x hx => ?_⟩
        rcases List.mem_append.1 hx with hx | hx
        · exact (hcache.exec i x hx).append
        · rw [List.mem_singleton.1 hx]
          trivial
      | next hx hxy =>
        obtain ⟨hy, hdata⟩ :=
          CacheOk.next hid hinj hok hcache hf hapart (List.mem_of_getElem? hx) hxy
        refine ⟨hdata, fun x hmem => ?_⟩
        rcases List.mem_or_eq_of_mem_set hmem with hmem | rfl
        · exact (hcache.exec i x hmem).append
        · exact hy
    · have hprog : Progress (fun _ _ => True) (sys.id k) t.st.store (t.st.sched k) eff :=
        progress_of_act (hok.sched k).loops trivial (fun _ _ _ => trivial) (fun _ _ => trivial)
          hb heff
      by_cases hk : i = k
      · subst hk
        rw [State.apply_self]
        exact hsame hprog.localData hprog.mem_exec
      · rw [State.apply_of_ne hk]
        exact hsame rfl fun _ hx => hx
    · exact hsame rfl fun _ hx => hx
  exact ⟨fun i => (hall i).1, fun i => (hall i).2⟩

theorem cacheOk_run {st₀ : State n m} {acts : List (Act n m)} (hid : ∀ i, IdOk (sys.id i))
    (hinj : Function.Injective sys.id) (h₀ : st₀.Fresh)
    (hrun : runActs (Traced.step sys) ⟨st₀, []⟩ acts = some t) (hf : AllFetchable t.outputs)
    (hapart : sys.config.cache = true → KeysApart sys t.outputs) : CacheOk sys t := by
  have hstart : CacheOk sys (⟨st₀, []⟩ : Traced n m) :=
    { data := fun i name piece h => by rw [h₀.localData i name] at h; cases h
      exec := fun i => by simp [h₀.exec i] }
  -- the outputs of a state are among those of the later ones
  let P : Traced n m → Prop := fun t => t.DataOk sys ∧
    (AllFetchable t.outputs → (sys.config.cache = true → KeysApart sys t.outputs) → CacheOk sys t)
  have hstep (t : Traced n m) (a : Act n m) (t' : Traced n m) (hs : t.step sys a = some t')
      (h : P t) : P t' := by
    refine ⟨h.1.step hid hs, fun hf hapart => ?_⟩
    obtain ⟨st', _, rfl⟩ := Option.map_eq_some_iff.1 hs
    have hf₀ : AllFetchable t.outputs := fun o ho => hf o (List.mem_append_left _ ho)
    have hapart₀ (hc : sys.config.cache = true) : KeysApart sys t.outputs :=
      (hapart hc).of_append
    exact CacheOk.step hid hinj h.1 (h.2 hf₀ hapart₀) hf₀ hapart₀ hs
  exact (runActs_invariant hstep hrun ⟨h₀.dataOk, fun _ _ => hstart⟩).2 hf hapart

end Traced

/-- In every state of every run, with or without the cache, the data that a core has assembled are
the outputs of the parents. -/
theorem run_assembled {n m : Nat} (sys : System n m) (hid : ∀ i, IdOk (sys.id i))
    (hinj : Function.Injective sys.id) (st₀ : State n m) (h₀ : st₀.Fresh) (acts : List (Act n m))
    (t : Traced n m) (hrun : runActs (Traced.step sys) ⟨st₀, []⟩ acts = some t)
    (hf : AllFetchable t.outputs)
    (hapart : sys.config.cache = true → KeysApart sys t.outputs) : t.Assembled sys :=
  fun i _ _ _ _ hx => (Traced.cacheOk_run hid hinj h₀ hrun hf hapart).exec i _ hx

section Fork

/-- Tasks wait at the schedulers, and their records have been put into the ZHT. -/
def State.loaded {n m : Nat} (records : List Value) (waitQueue : Fin n → List TaskMsg) :
    State n m where
  store := fun key => (records.find? (·.id = key)).map valueToStr
  sched := fun i => { boot := .running, waitQueue := waitQueue i }
  client := fun _ => .sending []

theorem State.fresh_loaded {n m : Nat} {records : List Value} {waitQueue : Fin n → List TaskMsg}
    (h : ∀ value ∈ records, Plain value.id ∧ strToValue (valueToStr value) = some value ∧
      value.parents = [] ∧ value.datanamelist = []) :
    (loaded records waitQueue : State n m).Fresh := by
  have hstore {key text : Str}
      (ht : (loaded records waitQueue : State n m).store key = some text) :
      ∃ value ∈ records, value.id = key ∧ valueToStr value = text := by
    obtain ⟨value, hfind, he⟩ := Option.map_eq_some_iff.1 ht
    exact ⟨value, List.mem_of_find?_eq_some hfind, by simpa using List.find?_some hfind, he⟩
  exact
    { key := by
        intro key text ht
        obtain ⟨value, hmem, hid, _⟩ := hstore ht
        exact hid ▸ (h value hmem).1
      record := by
        intro key text ht value' hv
        obtain ⟨value, hmem, _, rfl⟩ := hstore ht
        obtain ⟨_, hread, hbare⟩ := h value hmem
        rw [hread] at hv
        cases hv
        exact hbare
      client := fun _ => .inr ⟨[], rfl⟩
      boot := fun _ => .inr rfl
      serving := fun _ => rfl
      exec := fun _ => rfl
      completeQueue := fun _ => rfl
      notify := fun _ => rfl
      localData := fun _ _ => rfl }

/-- Two schedulers with a cache. -/
def pairSystem (id₀ id₁ : Str) : System 2 0 where
  config :=
    { numAllTask := 3
      maxTaskPerPkg := 1
      dataSizeThreshold := 10
      numCorePerExecutor := 1
      cache := true }
  id := ![id₀, id₁]
  client := Fin.elim0

/-- Three tasks of client 1. The task `116` needs the outputs of `115` and `15`. -/
def forkState : State 2 0 :=
  .loaded
    [{ id := "115".toList, indegree := some 0, children := ["116".toList], outputsize := some 1 },
      { id := "15".toList, indegree := some 0, children := ["116".toList], outputsize := some 1 },
      { id := "116".toList, indegree := some 2 }]
    ![[⟨"115".toList, "u".toList, "d".toList, "a".toList, 0⟩,
        ⟨"116".toList, "u".toList, "d".toList, "c".toList, 0⟩],
      [⟨"15".toList, "u".toList, "d".toList, "b".toList, 0⟩]]

/-- The first waiting task is found ready and its record is looked up by a core. -/
def beginTask (i : Fin 2) : List (Act 2 0) :=
  [.sched i (.move .popWaiting), .sched i (.move .lookupReady), .sched i (.move .processReady),
    .sched i (.move .putChecked), .sched i (.move (.popReady false 0)),
    .sched i (.move (.lookupExec 0))]

/-- The task is run and its child notified. -/
def endTask (i : Fin 2) (result : Str) : List (Act 2 0) :=
  [.sched i (.move (.storeResult 0 result)), .sched i (.finish 0), .sched i .popComplete,
    .sched i .lookupChildren, .sched i .notifyChild, .sched i .notifyChild, .sched i .notifyChild]

/-- Both parents are run, and the first scheduler takes the child and its own piece of data. -/
def forkRun : List (Act 2 0) :=
  beginTask 0 ++ endTask 0 "x".toList ++ beginTask 1 ++ endTask 1 "y".toList ++ beginTask 0 ++
    [.sched 0 (.move (.fetchLocal 0))]

theorem fresh_forkState : forkState.Fresh := State.fresh_loaded (by decide +kernel)

theorem run_assembled_fork :
    ∃ t, runActs (Traced.step (pairSystem "n1".toList "n2".toList)) ⟨forkState, []⟩
        (forkRun ++ [.sched 0 (.move (.requireData 0)),
          .fetch 0 0 1 [dataText "y".toList ++ ['$']]]) = some t ∧
      t.Assembled (pairSystem "n1".toList "n2".toList) := by
  have hsome : (runActs (Traced.step (pairSystem "n1".toList "n2".toList)) ⟨forkState, []⟩
      (forkRun ++ [.sched 0 (.move (.requireData 0)),
        .fetch 0 0 1 [dataText "y".toList ++ ['$']]])).any (fun t =>
          AllFetchable t.outputs ∧ KeysApart (pairSystem "n1".toList "n2".toList) t.outputs) =
      true := by
    decide +kernel
  obtain ⟨t, hrun, hok⟩ := (Option.any_eq_true _ _).1 hsome
  obtain ⟨hf, hapart⟩ := of_decide_eq_true hok
  exact ⟨t, hrun, run_assembled _ (by decide) (by decide) forkState fresh_forkState _ t hrun hf
    fun _ => hapart⟩

/-- A core has taken the piece `xx` where the parents have put out `xy`. -/
def Exec.mixed (outputs : List (Output 2)) : Exec → Bool
  | .fetching _ value k data =>
    data = "xx".toList ∧
      parentData (pairSystem "n1".toList "n11".toList) outputs value k = some "xy".toList
  | _ => false

/-- The keys of `115` on `n1` and of `15` on `n11` are the same. -/
theorem not_run_assembled_fork :
    ∃ t, runActs (Traced.step (pairSystem "n1".toList "n11".toList)) ⟨forkState, []⟩
        (forkRun ++ [.sched 0 (.move (.fetchLocal 0))]) = some t ∧ AllFetchable t.outputs ∧
      ¬ t.Assembled (pairSystem "n1".toList "n11".toList) := by
  have hsome : (runActs (Traced.step (pairSystem "n1".toList "n11".toList)) ⟨forkState, []⟩
      (forkRun ++ [.sched 0 (.move (.fetchLocal 0))])).any (fun t =>
        AllFetchable t.outputs ∧ (t.st.sched 0).exec.any (Exec.mixed t.outputs)) = true := by
    decide +kernel
  obtain ⟨t, hrun, hok⟩ := (Option.any_eq_true _ _).1 hsome
  obtain ⟨hf, hexec⟩ := of_decide_eq_true hok
  obtain ⟨x, hx, hdata⟩ := List.any_eq_true.1 hexec
  refine ⟨t, hrun, hf, fun h => ?_⟩
  cases x with
  | fetching tm value k data =>
    obtain ⟨rfl, hparent⟩ := of_decide_eq_true hdata
    rw [h 0 tm value _ k hx] at hparent
    exact absurd (Option.some.inj hparent) (by decide)
  | popped tm => cases hdata
  | requiring tm value k data => cases hdata
  | stored tm value key => cases hdata

end Fork

end MatrixZht
