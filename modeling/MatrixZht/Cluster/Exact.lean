import MatrixZht.Cluster.Safety

namespace MatrixZht
open Lib

section Defs

variable {n m : Nat}

/-- The record under the key has been inserted, as far as its client has come. -/
def ClientPhase.Inserted (key : Str) (store : Store) : ClientPhase n → Prop
  | .waiting => True
  | .inserting todo => (store key).isSome ∨ key ∈ todo.map Prod.fst
  | _ => (store key).isSome

/-- Once a client sends its tasks, their records show all notifications and nothing else. -/
structure State.Exact (sys : System n m) (st : State n m) : Prop where
  begun : ∀ c, st.client c ≠ .waiting → (sys.client c).adjList.isSome
  inserted : ∀ c k, sys.HasRecord c k → (st.client c).Inserted (sys.taskId c k) st.store
  initTask : ∀ c todo, st.client c = .sending todo → (sys.client c).initTask.isSome
  record : ∀ c k todo text, st.client c = .sending todo → sys.HasRecord c k →
    st.store (sys.taskId c k) = some text →
    IsRecord (sys.client c) k (landedOn st.landed (sys.taskId c k)) text

end Defs

section Client

variable {n m : Nat} {sys : System n m} {store store' : Store} {landed : List Landing} {key : Str}
  {c : Fin m} {phase phase' : ClientPhase n}

theorem isSome_insert {text key' : Str} (h : (store key).isSome = true) :
    (store.insert key' text key).isSome = true := by
  by_cases hk : key = key'
  · rw [hk, Store.insert_self]
    rfl
  · rwa [Store.insert_of_ne hk]

theorem ClientPhase.Inserted.mono (h : phase.Inserted key store)
    (hs : (store key).isSome = true → (store' key).isSome = true) :
    phase.Inserted key store' := by
  cases phase with
  | waiting => trivial
  | inserting todo => exact h.imp_left hs
  | _ => exact hs h

theorem ClientNext.writes (hok : sys.PhaseOk landed c phase)
    (hs : ClientNext (sys.client c) store phase store' phase') :
    store' = store ∨
      ∃ k text, sys.HasRecord c k ∧ store' = store.insert (sys.taskId c k) text := by
  cases hs with
  | insert p todo =>
    obtain ⟨k, hkey, hrec⟩ := hok p List.mem_cons_self
    exact .inr ⟨k, p.2, hrec.hasRecord, by rw [hkey]⟩
  | update tm value todo =>
    obtain ⟨⟨k, L, hid, _, hrec⟩, _⟩ := hok
    exact .inr ⟨k, _, hrec.hasRecord, by rw [hid]⟩
  | _ => exact .inl rfl

theorem ClientNext.inserted_of {k : Int} (hk : sys.HasRecord c k)
    (hi : phase.Inserted (sys.taskId c k) store)
    (hs : ClientNext (sys.client c) store phase store' phase') :
    phase'.Inserted (sys.taskId c k) store' := by
  cases hs with
  | @begin adj _ hadj =>
    obtain ⟨adj', hadj', hk⟩ := hk
    rw [hadj] at hadj'
    cases hadj'
    refine .inr (List.mem_map.2 ⟨_, List.mem_map.2 ⟨(k, adj.children k), ?_, rfl⟩, rfl⟩)
    rw [Std.TreeMap.mem_toList_iff_getElem?_eq_some, AdjList.children,
      Std.TreeMap.getD_eq_getD_getElem?]
    obtain ⟨l, hl⟩ := Option.isSome_iff_exists.1 (Std.TreeMap.isSome_getElem?_iff_mem.2 hk)
    rw [hl, Option.getD_some]
  | insert p todo =>
    rcases hi with hi | hi
    · exact .inl (isSome_insert hi)
    · rcases List.mem_cons.1 hi with he | hi
      · refine .inl ?_
        rw [he, Store.insert_self]
        rfl
      · exact .inr hi
  | inserted _ => exact hi.resolve_right List.not_mem_nil
  | look _ _ => exact hi
  | update tm value todo => exact isSome_insert hi
  | send _ _ => exact hi

end Client

namespace State

variable {n m : Nat} {sys : System n m} {st st' : State n m} {c : Fin m} {k : Int}

theorem landedOn_eq_nil (hled : st.Ledger sys) (hcons : st.Conserved sys) (hd : sys.Distinct)
    (hk : sys.HasRecord c k) (hphase : ∀ todo, st.client c ≠ .sending todo) :
    landedOn st.landed (sys.taskId c k) = [] := by
  rw [List.eq_nil_iff_forall_not_mem]
  intro l hl
  obtain ⟨adj, hadj, hmem⟩ := hk
  obtain ⟨p, hp, hparent⟩ := hled.parent_of_landedOn hd hadj hmem hl
  obtain ⟨e, he, _, hte, _⟩ := hled.mem_landed (List.mem_of_mem_filter hl)
  have hplace : e.2.core ∈ cores st.submitted := by
    rw [← hcons.placed, places, Multiset.mem_add, Multiset.mem_add]
    exact .inl (.inr (mem_cores.2 ⟨e.2, List.mem_map_of_mem he, rfl⟩))
  obtain ⟨todo, hsend⟩ := hcons.sending hd hplace
    (.inr ⟨adj, hadj, (AdjList.mem_parents.1 hp).1⟩) (hte.symm.trans hparent)
  exact hphase todo hsend

/-- What a step of a scheduler does to the record of a task. -/
theorem record_progress {i : Fin n} {eff : Effect} (hr : st.Records sys)
    (hid : IsItem (sys.id i)) (hp : Progress sys.WritesForeign (sys.id i) st.store (st.sched i) eff)
    (hk : sys.HasRecord c k) {text : Str}
    (hrec : ∀ text, st.store (sys.taskId c k) = some text →
      IsRecord (sys.client c) k (landedOn st.landed (sys.taskId c k)) text)
    (htext : eff.store (sys.taskId c k) = some text) :
    IsRecord (sys.client c) k (landedOn (st.landed ++ eff.landed) (sys.taskId c k)) text := by
  cases hp with
  | other hstore _ _ =>
    rw [List.append_nil]
    rcases hstore with rfl | ⟨key, t, hf, _, _, rfl⟩
    · exact hrec text htext
    · dsimp only at htext
      rw [Store.insert_of_ne (hf c k hk.hasTask).symm] at htext
      exact hrec text htext
  | @land item child old new todo r hnotify hold hnew =>
    have hn := (hr.worker i).notify
    rw [hnotify] at hn
    dsimp only at htext
    rw [landedOn_append]
    by_cases hchild : child = sys.taskId c k
    · rw [hchild] at hold
      rw [hchild, Store.insert_self] at htext
      cases htext
      rw [if_pos hchild]
      exact (hrec old hold).notify (hn.1.landing_ok hid) hnew
    · rw [Store.insert_of_ne (Ne.symm hchild)] at htext
      rw [if_neg hchild, List.append_nil]
      exact hrec text htext
  | finish _ => simpa using hrec text htext
  | popComplete _ _ => simpa using hrec text htext
  | lookupChildren _ _ => simpa using hrec text htext
  | leave _ => simpa using hrec text htext
  | retry _ _ => simpa using hrec text htext

theorem isSome_progress {i : Fin n} {store : Store} {s : Sched} {eff : Effect} {key : Str}
    (hp : Progress sys.WritesForeign (sys.id i) store s eff) (h : (store key).isSome = true) :
    (eff.store key).isSome = true := by
  cases hp with
  | other hstore _ _ =>
    rcases hstore with rfl | ⟨_, _, _, _, _, rfl⟩
    · exact h
    · exact isSome_insert h
  | land _ _ _ => exact isSome_insert h
  | _ => exact h

theorem Exact.quiet (h : st.Exact sys) {out : Option (Output n)} (hq : Quiet sys out st st') :
    st'.Exact sys where
  begun := by
    intro c hc
    rcases hq.client c with he | ⟨t, t', hst, _⟩
    · exact h.begun c (he ▸ hc)
    · exact h.begun c (by rw [hst]; nofun)
  inserted := by
    intro c k hk
    have hi := h.inserted c k hk
    rw [hq.store]
    rcases hq.client c with he | ⟨t, t', hst, hst'⟩
    · rwa [he]
    · rw [hst] at hi
      rwa [hst']
  initTask := by
    intro c todo hc
    rcases hq.client c with he | ⟨t, t', hst, _⟩
    · exact h.initTask c todo (he ▸ hc)
    · exact h.initTask c t hst
  record := by
    intro c k todo text hc hk htext
    rw [hq.store] at htext
    rw [hq.landed]
    rcases hq.client c with he | ⟨t, t', hst, _⟩
    · exact h.record c k todo text (he ▸ hc) hk htext
    · exact h.record c k t text hst hk htext

theorem Exact.client (h : st.Exact sys) (hr : st.Records sys) (hled : st.Ledger sys)
    (hcons : st.Conserved sys) (hd : sys.Distinct) {store : Store} {phase : ClientPhase n}
    (hs : ClientNext (sys.client c) st.store (st.client c) store phase) :
    ({ st.setClient c phase with store } : State n m).Exact sys where
  begun := by
    intro d hd'
    by_cases hdc : d = c
    · subst hdc
      generalize hold : st.client d = old at hs
      cases hs with
      | begin _ hadj =>
        rw [hadj]
        rfl
      | _ =>
        refine h.begun d ?_
        rw [hold]
        intro hphase
        cases hphase
    · simp only [State.setClient, Function.update_of_ne hdc] at hd'
      exact h.begun d hd'
  inserted := by
    intro d k hk
    by_cases hdc : d = c
    · subst hdc
      simp only [State.setClient, Function.update_self]
      exact hs.inserted_of hk (h.inserted d k hk)
    · simp only [State.setClient, Function.update_of_ne hdc]
      refine (h.inserted d k hk).mono fun hsome => ?_
      rcases hs.writes (hr.store.client c) with rfl | ⟨_, _, _, rfl⟩
      · exact hsome
      · exact isSome_insert hsome
  initTask := by
    intro d todo hd'
    by_cases hdc : d = c
    · subst hdc
      simp only [State.setClient, Function.update_self] at hd'
      subst hd'
      generalize st.client d = old at hs
      cases hs with
      | send htasks _ =>
        rw [htasks]
        rfl
    · simp only [State.setClient, Function.update_of_ne hdc] at hd'
      exact h.initTask d todo hd'
  record := by
    intro d k todo text hd' hk htext
    by_cases hdc : d = c
    · -- the last phase begins, and nothing has been stored for the client yet
      subst hdc
      simp only [State.setClient, Function.update_self] at hd'
      subst hd'
      generalize hold : st.client d = old at hs
      cases hs with
      | send _ _ =>
        obtain ⟨L, hL, hrec⟩ := hr.store.record d k text hk htext
        have hphase : ∀ todo, st.client d ≠ .sending todo := by
          intro todo hsending
          cases hold.symm.trans hsending
        have hnil := landedOn_eq_nil hled hcons hd hk hphase
        rw [hnil, List.sublist_nil] at hL
        simp only [State.setClient, hnil]
        exact hL ▸ hrec
    · simp only [State.setClient, Function.update_of_ne hdc] at hd'
      refine h.record d k todo text hd' hk ?_
      rcases hs.writes (hr.store.client c) with rfl | ⟨k', t, hk', rfl⟩
      · exact htext
      · have hne : sys.taskId d k ≠ sys.taskId c k' := fun he =>
          hdc (hd.eq hk.hasTask hk'.hasTask he).1
        simpa only [Store.insert_of_ne hne] using htext

theorem Exact.step (h : st.Exact sys) (hr : st.Records sys) (hled : st.Ledger sys)
    (hcons : st.Conserved sys) (hd : sys.Distinct) (hid : ∀ i, IsItem (sys.id i)) {a : Act n m}
    (ha : a.apart sys) (hs : st.step sys a = some st') : st'.Exact sys := by
  rcases step_cases hs with
    hq | ⟨i, b, eff, rfl, hb, heff, rfl⟩ | ⟨c, store, phase, hp, rfl⟩
  · exact h.quiet hq
  · have hp := hr.progress hid ha hb heff
    exact
      { begun := h.begun
        inserted := fun c k hk => (h.inserted c k hk).mono fun hsome => isSome_progress hp hsome
        initTask := h.initTask
        record := fun c k todo text hc hk htext =>
          record_progress hr (hid i) hp hk (fun text => h.record c k todo text hc hk) htext }
  · exact h.client hr hled hcons hd hp

theorem exact_start (sys : System n m) : (start n m).Exact sys where
  begun := fun _ hc => absurd rfl hc
  inserted := fun _ _ _ => trivial
  initTask := nofun
  record := nofun

/-- The invariants of a run with clean tasks. -/
structure Sound (sys : System n m) (st : State n m) : Prop where
  conserved : st.Conserved sys
  records : st.Records sys
  ledger : st.Ledger sys
  exact : st.Exact sys

theorem sound_run {acts : List (Act n m)} (hclean : sys.Clean) (hd : sys.Distinct)
    (hid : ∀ i, IsItem (sys.id i)) (hacts : ∀ a ∈ acts, a.apart sys)
    (hrun : runActs (State.step sys) (start n m) acts = some st) : st.Sound sys :=
  runActs_preserves (P := fun st => st.Sound sys)
    (fun _ _ _ ha hs h =>
      { conserved := h.conserved.step hclean hs
        records := h.records.step hd hid ha hs
        ledger := h.ledger.step h.records hd hid ha hs
        exact := h.exact.step h.records h.ledger h.conserved hd hid ha hs })
    hacts hrun
    ⟨conserved_start sys, records_start sys, ledger_start sys, exact_start sys⟩

end State

end MatrixZht
