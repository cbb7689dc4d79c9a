import MatrixZht.Cluster.Workers

namespace MatrixZht
open Lib

/-- An edge from a task to one of its children, with the id of the scheduler that ran the task. -/
structure Edge where
  id : Str
  parent : Str
  child : Str

def Landing.edge (l : Landing) : Edge := ⟨l.id, l.cqItem.taskId, l.child⟩

section Defs

variable {n m : Nat}

open Classical in
/-- The ids of the children of a task in the graph of its client. -/
noncomputable def System.kids (sys : System n m) (t : Str) : List Str :=
  if h : ∃ p : Fin m × Int × AdjList, t = sys.taskId p.1 p.2.1 ∧
      (sys.client p.1).adjList = some p.2.2 ∧ p.2.1 ∈ p.2.2 then
    (h.choose.2.2.children h.choose.2.1).map (sys.taskId h.choose.1)
  else []

/-- The notifications that follow from running a task. -/
noncomputable def System.edges (sys : System n m) (id t : Str) : Multiset Edge :=
  ((sys.kids t).map (⟨id, t, ·⟩) : List Edge)

noncomputable def Notify.edges (sys : System n m) (id : Str) : Notify → Multiset Edge
  | .idle => 0
  | .popped item => sys.edges id item.taskId
  | .notifying item todo _ => (todo.map (⟨id, item.taskId, ·⟩) : List Edge)

/-- The notifications that a scheduler still owes. -/
noncomputable def Sched.owed (sys : System n m) (id : Str) (s : Sched) : Multiset Edge :=
  (s.completeQueue : Multiset CmpQueueItem).bind (fun item => sys.edges id item.taskId) +
    s.notify.edges sys id

/-- Every task that has been run leads to one notification for each of its children, which is
stored or owed. -/
structure State.Ledger (sys : System n m) (st : State n m) : Prop where
  balance : (st.landed.map Landing.edge : Multiset Edge) + ∑ i, (st.sched i).owed sys (sys.id i) =
    (st.executed : Multiset (Fin n × TaskMsg)).bind fun p => sys.edges (sys.id p.1) p.2.taskid
  keyed : ∀ l ∈ st.landed, l.cqItem.key = l.id ++ l.cqItem.taskId

end Defs

section Kids

variable {n m : Nat} {sys : System n m} {c : Fin m} {k : Int} {adj : AdjList} {t child : Str}

theorem System.kids_taskId (hd : sys.Distinct) (hadj : (sys.client c).adjList = some adj)
    (hk : k ∈ adj) : sys.kids (sys.taskId c k) = (adj.children k).map (sys.taskId c) := by
  have hex : ∃ p : Fin m × Int × AdjList, sys.taskId c k = sys.taskId p.1 p.2.1 ∧
      (sys.client p.1).adjList = some p.2.2 ∧ p.2.1 ∈ p.2.2 := ⟨(c, k, adj), rfl, hadj, hk⟩
  rw [kids, dif_pos hex]
  obtain ⟨hid, hadj', hk'⟩ := hex.choose_spec
  generalize hex.choose = p at hid hadj' hk'
  obtain ⟨c', k', adj'⟩ := p
  obtain ⟨rfl, rfl⟩ := hd.eq (.inr ⟨adj, hadj, hk⟩) (.inr ⟨adj', hadj', hk'⟩) hid
  simp only at hadj'
  rw [hadj] at hadj'
  cases hadj'
  rfl

theorem System.mem_kids (h : child ∈ sys.kids t) :
    ∃ c k adj, t = sys.taskId c k ∧ (sys.client c).adjList = some adj ∧ k ∈ adj ∧
      ∃ k' ∈ adj.children k, child = sys.taskId c k' := by
  rw [kids] at h
  split at h
  · next hex =>
    obtain ⟨hid, hadj, hk⟩ := hex.choose_spec
    obtain ⟨k', hk', he⟩ := List.mem_map.1 h
    exact ⟨_, _, _, hid, hadj, hk, k', hk', he.symm⟩
  · cases h

theorem System.nodup_kids (t : Str) : (sys.kids t).Nodup := by
  rw [kids]
  split
  · next hex =>
    obtain ⟨_, hadj, _⟩ := hex.choose_spec
    exact ((genDagAdjlist_ok hadj).nodup _).map (taskId_injective _)
  · exact List.nodup_nil

theorem System.Foreign.kids_eq_nil (h : sys.Foreign t) : sys.kids t = [] := by
  rw [System.kids, dif_neg]
  intro ⟨⟨c, k, adj⟩, hid, hadj, hk⟩
  exact h c k (.inr ⟨adj, hadj, hk⟩) hid

theorem StoreOk.children_eq_kids {store : Store} {landed : List Landing}
    {client : Fin m → ClientPhase n} (h : StoreOk sys store landed client) (hd : sys.Distinct)
    {value : Value} (hv : strToValue (store.lookup t) = some value) :
    value.children = sys.kids t := by
  obtain ⟨text, htext, hval⟩ := eq_some_of_strToValue hv
  rcases h.children htext hval with ⟨hf, hnil⟩ | ⟨c, k, adj, rfl, hadj, hk, he⟩
  · rw [hnil, hf.kids_eq_nil]
  · rw [he, System.kids_taskId hd hadj hk]

end Kids

namespace State

variable {n m : Nat} {sys : System n m} {st st' : State n m}

/-- A step of a scheduler pays what it owes or owes what it has run. -/
theorem owed_progress {i : Fin n} {store : Store} {landed : List Landing}
    {client : Fin m → ClientPhase n} {s : Sched} {eff : Effect}
    (h : StoreOk sys store landed client) (hd : sys.Distinct)
    (hp : Progress sys.WritesForeign (sys.id i) store s eff) :
    eff.sched.owed sys (sys.id i) + (eff.landed.map Landing.edge : Multiset Edge) =
      s.owed sys (sys.id i) +
        (eff.executed : Multiset TaskMsg).bind fun tm => sys.edges (sys.id i) tm.taskid := by
  cases hp with
  | other _ _ _ => simp [Sched.owed]
  | finish hexec =>
    simp only [Sched.owed, ← Multiset.coe_add, Multiset.add_bind, Multiset.coe_singleton,
      Multiset.singleton_bind, List.map_nil, Multiset.coe_nil]
    abel
  | popComplete hidle hqueue =>
    simp only [Sched.owed, hidle, hqueue, Notify.edges, ← Multiset.cons_coe, Multiset.cons_bind,
      List.map_nil, Multiset.coe_nil, Multiset.zero_bind]
    abel
  | lookupChildren hpopped hvalue =>
    simp only [Sched.owed, hpopped, Notify.edges, System.edges, h.children_eq_kids hd hvalue,
      List.map_nil, Multiset.coe_nil, Multiset.zero_bind]
  | leave hdone => simp [Sched.owed, hdone, Notify.edges]
  | retry hnotify hok => simp [Sched.owed, hnotify, Notify.edges]
  | land hnotify hold hnew =>
    simp only [Sched.owed, hnotify, Notify.edges, List.map_cons, List.map_nil, ← Multiset.cons_coe,
      Landing.edge, Multiset.coe_nil, Multiset.zero_bind, add_zero, add_assoc]
    rw [Multiset.cons_zero, ← Multiset.singleton_add, add_comm {_}]

theorem Ledger.step (h : st.Ledger sys) (hr : st.Records sys) (hd : sys.Distinct)
    (hid : ∀ i, IsItem (sys.id i)) {a : Act n m} (ha : a.apart sys)
    (hs : st.step sys a = some st') : st'.Ledger sys := by
  rcases step_cases hs with
    hq | ⟨i, b, eff, rfl, hb, heff, rfl⟩ | ⟨c, store, phase, hp, rfl⟩
  · have howed (i : Fin n) : (st'.sched i).owed sys (sys.id i) =
        (st.sched i).owed sys (sys.id i) := by
      rw [Sched.owed, (hq.sched i).completeQueue, (hq.sched i).notify, Sched.owed]
    refine ⟨?_, ?_⟩
    · simp only [hq.landed, hq.executed, howed]
      exact h.balance
    · rw [hq.landed]
      exact h.keyed
  · have hp := hr.progress hid ha hb heff
    refine ⟨?_, ?_⟩
    · have howed := owed_progress hr.store hd hp
      have hsum : ∑ j, (Function.update st.sched i eff.sched j).owed sys (sys.id j) +
          (eff.landed.map Landing.edge : Multiset Edge) =
          ∑ j, (st.sched j).owed sys (sys.id j) +
            (eff.executed : Multiset TaskMsg).bind fun tm => sys.edges (sys.id i) tm.taskid := by
        refine sum_add_eq_sum_add i (fun j hj => ?_) ?_
        · rw [Function.update_of_ne hj]
        · rwa [Function.update_self]
      simp only [State.apply, List.map_append, ← Multiset.coe_add, Multiset.add_bind,
        ← Multiset.map_coe, Multiset.bind_map, ← h.balance]
      rw [add_assoc, add_assoc, ← hsum, Multiset.map_coe, Multiset.map_coe]
      abel
    · intro l hl
      rcases List.mem_append.1 hl with hl | hl
      · exact h.keyed l hl
      · cases hp with
        | land hnotify _ _ =>
          have hn := (hr.worker i).notify
          rw [hnotify] at hn
          rw [List.mem_singleton.1 hl]
          exact hn.1.key
        | _ => cases hl
  · exact ⟨h.balance, h.keyed⟩

theorem ledger_start (sys : System n m) : (start n m).Ledger sys where
  balance := by
    have hsum : ∑ i, ((start n m).sched i).owed sys (sys.id i) = 0 :=
      Finset.sum_eq_zero fun _ _ => rfl
    rw [hsum]
    rfl
  keyed := fun _ hl => nomatch hl

theorem Ledger.mem_landed (h : st.Ledger sys) {l : Landing} (hl : l ∈ st.landed) :
    ∃ p ∈ st.executed, l.id = sys.id p.1 ∧ l.cqItem.taskId = p.2.taskid ∧
      l.child ∈ sys.kids p.2.taskid := by
  have hmem : l.edge ∈ (st.executed : Multiset (Fin n × TaskMsg)).bind
      fun p => sys.edges (sys.id p.1) p.2.taskid := by
    rw [← h.balance, Multiset.mem_add]
    exact .inl (Multiset.mem_coe.2 (List.mem_map_of_mem hl))
  obtain ⟨p, hp, hedge⟩ := Multiset.mem_bind.1 hmem
  obtain ⟨child, hchild, he⟩ := List.mem_map.1 (Multiset.mem_coe.1 hedge)
  simp only [Landing.edge, Edge.mk.injEq] at he
  obtain ⟨hid, hparent, rfl⟩ := he
  exact ⟨p, Multiset.mem_coe.1 hp, hid.symm, hparent.symm, hchild⟩

theorem nodup_edges (sys : System n m) (hexec : (st.executed.map fun p => p.2.taskid).Nodup) :
    ((st.executed : Multiset (Fin n × TaskMsg)).bind
      fun p => sys.edges (sys.id p.1) p.2.taskid).Nodup := by
  rw [Multiset.nodup_bind]
  refine ⟨fun p _ => ?_, ?_⟩
  · refine Multiset.coe_nodup.2 ((System.nodup_kids _).map fun a b hab => ?_)
    cases hab
    rfl
  · have hsymm : Std.Symm
        (Function.onFun Disjoint fun p : Fin n × TaskMsg => sys.edges (sys.id p.1) p.2.taskid) :=
      ⟨fun _ _ hpq => hpq.symm⟩
    rw [Multiset.pairwise_coe_iff_pairwise]
    refine (List.pairwise_map.1 hexec).imp fun {p q} hne => ?_
    rw [Function.onFun, Multiset.disjoint_left]
    intro e hp hq
    obtain ⟨_, _, rfl⟩ := List.mem_map.1 (Multiset.mem_coe.1 hp)
    obtain ⟨_, _, he⟩ := List.mem_map.1 (Multiset.mem_coe.1 hq)
    exact hne (congrArg Edge.parent he).symm

/-- No child is notified twice for the same parent. -/
theorem Ledger.nodup_landedOn (h : st.Ledger sys)
    (hexec : (st.executed.map fun p => p.2.taskid).Nodup) (child : Str) :
    ((landedOn st.landed child).map (·.cqItem.taskId)).Nodup := by
  have hall : (st.landed.map Landing.edge).Nodup := by
    refine Multiset.coe_nodup.1 (Multiset.nodup_of_le ?_ (nodup_edges sys hexec))
    rw [← h.balance]
    exact Multiset.le_add_right _ _
  have hon : ((landedOn st.landed child).map Landing.edge).Nodup :=
    hall.sublist (List.filter_sublist.map _)
  have hparent : (landedOn st.landed child).map (·.cqItem.taskId) =
      ((landedOn st.landed child).map Landing.edge).map Edge.parent := by
    rw [List.map_map]
    rfl
  rw [hparent]
  refine hon.map_on fun e he e' he' heq => ?_
  obtain ⟨l, hl, rfl⟩ := List.mem_map.1 he
  obtain ⟨l', hl', rfl⟩ := List.mem_map.1 he'
  obtain ⟨hl, hc⟩ := List.mem_filter.1 hl
  obtain ⟨hl', hc'⟩ := List.mem_filter.1 hl'
  -- the parent was run by one scheduler only
  obtain ⟨p, hp, hid, hparent, _⟩ := h.mem_landed hl
  obtain ⟨p', hp', hid', hparent', _⟩ := h.mem_landed hl'
  have hpp : p = p' := by
    refine List.inj_on_of_nodup_map hexec hp hp' ?_
    rw [← hparent, ← hparent']
    exact heq
  have hchild : l.child = l'.child := (of_decide_eq_true hc).trans (of_decide_eq_true hc').symm
  subst hpp
  simp only [Landing.edge, Edge.mk.injEq]
  exact ⟨hid.trans hid'.symm, heq, hchild⟩

end State

end MatrixZht
