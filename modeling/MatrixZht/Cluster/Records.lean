import MatrixZht.Cluster.Conserve
import MatrixZht.Cluster.TaskRecord

namespace MatrixZht
open Lib

/-- The notifications stored for a task. -/
def landedOn (landed : List Landing) (child : Str) : List Landing :=
  landed.filter (·.child = child)

theorem landedOn_append (landed : List Landing) (l : Landing) (child : Str) :
    landedOn (landed ++ [l]) child =
      landedOn landed child ++ if l.child = child then [l] else [] := by
  by_cases h : l.child = child <;> simp [landedOn, h]

theorem landedOn_sublist (landed : List Landing) (l : Landing) (child : Str) :
    (landedOn landed child).Sublist (landedOn (landed ++ [l]) child) := by
  rw [landedOn_append]
  exact List.sublist_append_left _ _

section Defs

variable {n m : Nat}

/-- The record of task `k` of client `c` exists in the graph of the client. -/
def System.HasRecord (sys : System n m) (c : Fin m) (k : Int) : Prop :=
  ∃ adj, (sys.client c).adjList = some adj ∧ k ∈ adj

def System.taskId (sys : System n m) (c : Fin m) (k : Int) : Str :=
  MatrixZht.taskId (sys.client c).index k

/-- The key is no task id. -/
def System.Foreign (sys : System n m) (key : Str) : Prop :=
  ∀ c k, (sys.client c).HasTask k → key ≠ sys.taskId c k

/-- What a client is about to write are records of its own tasks. -/
def System.PhaseOk (sys : System n m) (landed : List Landing) (c : Fin m) : ClientPhase n → Prop
  | .waiting => True
  | .inserting todo => ∀ p ∈ todo, ∃ k, p.1 = sys.taskId c k ∧ IsRecord (sys.client c) k [] p.2
  | .updating todo => ∀ tm ∈ todo, ∃ k, (sys.client c).HasTask k ∧ tm.taskid = sys.taskId c k
  | .looked tm value todo =>
    (∃ k L, tm.taskid = sys.taskId c k ∧ L.Sublist (landedOn landed tm.taskid) ∧
        IsRecord (sys.client c) k L (valueToStr value)) ∧
      ∀ tm ∈ todo, ∃ k, (sys.client c).HasTask k ∧ tm.taskid = sys.taskId c k
  | .sending _ => True

/-- Under the task ids are records, and elsewhere nothing that names children. -/
structure StoreOk (sys : System n m) (store : Store) (landed : List Landing)
    (client : Fin m → ClientPhase n) : Prop where
  record : ∀ c k text, sys.HasRecord c k → store (sys.taskId c k) = some text →
    ∃ L, L.Sublist (landedOn landed (sys.taskId c k)) ∧ IsRecord (sys.client c) k L text
  absent : ∀ c k, (sys.client c).HasTask k → ¬ sys.HasRecord c k →
    store (sys.taskId c k) = none
  other : ∀ key text, sys.Foreign key → store key = some text → Inert text ∧ IsItem key
  client : ∀ c, sys.PhaseOk landed c (client c)

end Defs

section Store

variable {n m : Nat} {sys : System n m} {store : Store} {landed : List Landing}
  {client : Fin m → ClientPhase n} {key text : Str} {c : Fin m} {k : Int}

theorem System.HasRecord.hasTask (h : sys.HasRecord c k) : (sys.client c).HasTask k := .inr h

theorem System.Distinct.eq (hd : sys.Distinct) {c' : Fin m} {k' : Int}
    (h : (sys.client c).HasTask k) (h' : (sys.client c').HasTask k')
    (he : sys.taskId c k = sys.taskId c' k') : c = c' ∧ k = k' := hd c c' k k' h h' he

theorem IsRecord.hasRecord {L : List Landing} (h : IsRecord (sys.client c) k L text) :
    sys.HasRecord c k := by
  obtain ⟨adj, _, hadj, hk, _⟩ := h
  exact ⟨adj, hadj, hk⟩

theorem foreign_of_mem {d : Char} (hd : d ∈ key) (hdig : d.isDigit = false) (hm : d ≠ '-') :
    sys.Foreign key :=
  fun _ _ _ => ne_taskId hd hdig hm

theorem System.PhaseOk.landed_mono {phase : ClientPhase n} (h : sys.PhaseOk landed c phase)
    (l : Landing) : sys.PhaseOk (landed ++ [l]) c phase := by
  cases phase with
  | looked tm value todo =>
    obtain ⟨⟨k, L, hid, hsub, hrec⟩, htodo⟩ := h
    exact ⟨⟨k, L, hid, hsub.trans (landedOn_sublist _ _ _), hrec⟩, htodo⟩
  | waiting => exact h
  | inserting todo => exact h
  | updating todo => exact h
  | sending todo => exact h

namespace StoreOk

theorem isItem (h : StoreOk sys store landed client) (hs : store key = some text) :
    IsItem key := by
  by_cases hf : sys.Foreign key
  · exact (h.other key text hf hs).2
  · simp only [System.Foreign, not_forall, not_not] at hf
    obtain ⟨c, k, _, rfl⟩ := hf
    exact isItem_taskId _ _

/-- What is stored under a task id is its record. -/
theorem hasRecord (h : StoreOk sys store landed client) (htask : (sys.client c).HasTask k)
    (hs : store (sys.taskId c k) = some text) : sys.HasRecord c k := by
  by_contra hr
  rw [h.absent c k htask hr] at hs
  cases hs

theorem children (h : StoreOk sys store landed client) (hs : store key = some text)
    {value : Value} (hv : strToValue text = some value) :
    (sys.Foreign key ∧ value.children = []) ∨ ∃ c k adj, key = sys.taskId c k ∧
      (sys.client c).adjList = some adj ∧ k ∈ adj ∧
      value.children = (adj.children k).map (sys.taskId c) := by
  by_cases hf : sys.Foreign key
  · exact .inl ⟨hf, (h.other key text hf hs).1 value hv⟩
  · simp only [System.Foreign, not_forall, not_not] at hf
    obtain ⟨c, k, htask, rfl⟩ := hf
    obtain ⟨L, _, hrec⟩ := h.record c k text (h.hasRecord htask hs) hs
    obtain ⟨adj, time, hadj, hk, hval⟩ := hrec.strToValue_eq
    rw [hval] at hv
    cases hv
    exact .inr ⟨c, k, adj, rfl, hadj, hk, rfl⟩

theorem setClient (h : StoreOk sys store landed client) {phase : ClientPhase n}
    (hp : sys.PhaseOk landed c phase) :
    StoreOk sys store landed (Function.update client c phase) where
  record := h.record
  absent := h.absent
  other := h.other
  client := by
    intro d
    by_cases hd : d = c
    · subst hd
      rwa [Function.update_self]
    · rw [Function.update_of_ne hd]
      exact h.client d

theorem insert_foreign (h : StoreOk sys store landed client) (hf : sys.Foreign key)
    (hkey : IsItem key) (ht : Inert text) :
    StoreOk sys (store.insert key text) landed client where
  record := by
    intro c k text' hr hs
    rw [Store.insert_of_ne (hf c k hr.hasTask).symm] at hs
    exact h.record c k text' hr hs
  absent := by
    intro c k htask hr
    rw [Store.insert_of_ne (hf c k htask).symm]
    exact h.absent c k htask hr
  other := by
    intro key' text' hf' hs
    by_cases hk : key' = key
    · subst hk
      rw [Store.insert_self] at hs
      cases hs
      exact ⟨ht, hkey⟩
    · rw [Store.insert_of_ne hk] at hs
      exact h.other key' text' hf' hs
  client := h.client

theorem insert_record (h : StoreOk sys store landed client) (hd : sys.Distinct) {L : List Landing}
    (hL : L.Sublist (landedOn landed (sys.taskId c k))) (hrec : IsRecord (sys.client c) k L text) :
    StoreOk sys (store.insert (sys.taskId c k) text) landed client where
  record := by
    intro c' k' text' hr hs
    by_cases he : sys.taskId c' k' = sys.taskId c k
    · obtain ⟨rfl, rfl⟩ := hd.eq hr.hasTask hrec.hasRecord.hasTask he
      rw [Store.insert_self] at hs
      cases hs
      exact ⟨L, hL, hrec⟩
    · rw [Store.insert_of_ne he] at hs
      exact h.record c' k' text' hr hs
  absent := by
    intro c' k' htask hr
    by_cases he : sys.taskId c' k' = sys.taskId c k
    · obtain ⟨rfl, rfl⟩ := hd.eq htask hrec.hasRecord.hasTask he
      exact absurd hrec.hasRecord hr
    · rw [Store.insert_of_ne he]
      exact h.absent c' k' htask hr
  other := by
    intro key' text' hf hs
    rw [Store.insert_of_ne (hf c k hrec.hasRecord.hasTask)] at hs
    exact h.other key' text' hf hs
  client := h.client

theorem land (h : StoreOk sys store landed client) (hd : sys.Distinct) {l : Landing} (hl : l.Ok)
    (hr : sys.HasRecord c k) (hchild : l.child = sys.taskId c k) {old new : Str}
    (hold : store l.child = some old) (hnew : notifyAttempt l.id l.cqItem old = some new) :
    StoreOk sys (store.insert l.child new) (landed ++ [l]) client := by
  rw [hchild] at hold ⊢
  obtain ⟨L, hL, hrec⟩ := h.record c k old hr hold
  have hgrow : StoreOk sys store (landed ++ [l]) client :=
    { record := by
        intro c' k' text hr' hs
        obtain ⟨L', hL', hrec'⟩ := h.record c' k' text hr' hs
        exact ⟨L', hL'.trans (landedOn_sublist _ _ _), hrec'⟩
      absent := h.absent
      other := h.other
      client := fun c => (h.client c).landed_mono l }
  refine hgrow.insert_record hd ?_ (hrec.notify hl hnew)
  rw [landedOn_append, if_pos hchild]
  exact hL.append (List.Sublist.refl _)

theorem phaseOk_inserting {adj : AdjList} (hadj : (sys.client c).adjList = some adj) :
    sys.PhaseOk landed c (.inserting ((sys.client c).insertTaskinfo adj)) := by
  intro p hp
  obtain ⟨⟨k, existList⟩, hmem, rfl⟩ := List.mem_map.1 hp
  exact ⟨k, rfl, isRecord_taskInfo hadj hmem⟩

theorem phaseOk_updating {tasks : List TaskMsg} (h : (sys.client c).initTask = some tasks) :
    sys.PhaseOk landed c (.updating tasks) := by
  intro tm htm
  have hmem : tm ∈ (sys.client c).tasks := by rwa [ClientConf.tasks, h, Option.getD_some]
  obtain ⟨i, hi, hid⟩ := mem_tasks hmem
  exact ⟨i, .inl ⟨i, hi, rfl⟩, hid⟩

theorem clientNext (h : StoreOk sys store landed client) (hd : sys.Distinct) {store' : Store}
    {phase phase' : ClientPhase n} (hc : sys.PhaseOk landed c phase)
    (hs : ClientNext (sys.client c) store phase store' phase') :
    StoreOk sys store' landed (Function.update client c phase') := by
  cases hs with
  | begin _ hadj => exact h.setClient (phaseOk_inserting hadj)
  | insert p todo =>
    obtain ⟨k, hkey, hrec⟩ := hc p List.mem_cons_self
    have htodo : sys.PhaseOk landed c (.inserting todo) := fun q hq =>
      hc q (List.mem_cons_of_mem _ hq)
    rw [hkey]
    exact (h.insert_record hd (List.nil_sublist _) hrec).setClient htodo
  | inserted htasks => exact h.setClient (phaseOk_updating htasks)
  | @look tm value todo time hvalue =>
    obtain ⟨text, htext, hval⟩ := eq_some_of_strToValue hvalue
    obtain ⟨k, htask, hid⟩ := hc tm List.mem_cons_self
    rw [hid] at htext
    obtain ⟨L, hL, hrec⟩ := h.record c k text (h.hasRecord htask htext) htext
    refine h.setClient ⟨⟨k, L, hid, hid ▸ hL, hrec.setSubmittime hval time⟩, ?_⟩
    exact fun tm' htm' => hc tm' (List.mem_cons_of_mem _ htm')
  | update tm value todo =>
    obtain ⟨⟨k, L, hid, hL, hrec⟩, htodo⟩ := hc
    have hupd : sys.PhaseOk landed c (.updating todo) := htodo
    rw [hid] at hL ⊢
    exact (h.insert_record hd hL hrec).setClient hupd
  | send _ _ => exact h.setClient trivial

end StoreOk

end Store

end MatrixZht
