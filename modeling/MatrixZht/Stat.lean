import Mathlib.Algebra.BigOperators.Ring.Finset
import Mathlib.Algebra.Order.BigOperators.Group.Finset
import Mathlib.Algebra.Order.Ring.Int
import MatrixZht.Lib.Run
import MatrixZht.Messages
import MatrixZht.Store

namespace MatrixZht
open Lib

def numTasksDone : Str := "num tasks done".toList

/-- Where `recording_stat` is. From `swap` on it holds `numTaskFinMutex`. -/
inductive RecordPhase where
  | idle
  | looked (numTaskDoneStr : Str)
  | swap (numTaskDoneStr numTaskDoneStrNew : Str)
  | relook
  | stopped
deriving DecidableEq

/-- The counters of a scheduler. `executed` are the tasks it has run, of which `numTaskFin` have
been counted. -/
structure Recorder where
  phase : RecordPhase := .idle
  running : Bool := true
  numTaskFin : Int := 0
  prevNumTaskFin : Int := 0
  executed : List TaskMsg := []

/-- The schedulers, the tasks not run so far and the store. `swapped` are the differences swapped
into the counter so far, each with the scheduler it came from. -/
structure StatState (n : Nat) where
  store : Store
  waiting : List TaskMsg
  sched : Fin n → Recorder := fun _ => {}
  swapped : List (Fin n × Int) := []

inductive StatAct (n : Nat) where
  | exec (i : Fin n) (k : Nat)
  | count (i : Fin n)
  | lookup (i : Fin n)
  | lock (i : Fin n)
  | request (i : Fin n)

def RecordPhase.locked : RecordPhase → Bool
  | swap _ _ => true
  | relook => true
  | _ => false

namespace Recorder

/-- The end of the swap loop: `prevNumTaskFin` is set and the lock is released. -/
def leaveLoop (r : Recorder) : Recorder :=
  { r with phase := .idle, prevNumTaskFin := r.numTaskFin }

/-- The loop after it got a value that is not the one it expected: it stops when all tasks are
done, with all completions taken for reported, and tries again otherwise. -/
def refresh (numAllTask : Int) (r : Recorder) (numTaskDoneStr : Str) : Recorder :=
  let numTaskDone := strToLong numTaskDoneStr
  if numTaskDone = numAllTask then r.leaveLoop
  else
    let numTaskDone := toInt64 (numTaskDone + (r.numTaskFin - r.prevNumTaskFin))
    { r with phase := .swap numTaskDoneStr (numToStr numTaskDone) }

end Recorder

namespace StatState

variable {n : Nat}

def setSched (st : StatState n) (i : Fin n) (r : Recorder) : StatState n :=
  { st with sched := Function.update st.sched i r }

def runTask (st : StatState n) (i : Fin n) (k : Nat) (tm : TaskMsg) : StatState n where
  store := st.store
  waiting := st.waiting.eraseIdx k
  sched :=
    Function.update st.sched i { st.sched i with executed := (st.sched i).executed ++ [tm] }
  swapped := st.swapped

def swapIn (st : StatState n) (i : Fin n) (store : Store) : StatState n where
  store := store
  waiting := st.waiting
  sched := Function.update st.sched i (st.sched i).leaveLoop
  swapped := st.swapped ++ [(i, (st.sched i).numTaskFin - (st.sched i).prevNumTaskFin)]

/-- One step: a task is run to its end and counted, or `recording_stat` makes a request or takes
the lock. -/
def step (numAllTask : Int) (st : StatState n) : StatAct n → Option (StatState n)
  | .exec i k => st.waiting[k]?.map (st.runTask i k)
  | .count i =>
    let r := st.sched i
    if r.numTaskFin < r.executed.length ∧ r.phase.locked = false then
      some (st.setSched i { r with numTaskFin := r.numTaskFin + 1 })
    else none
  | .lookup i =>
    let r := st.sched i
    if r.phase = .idle then
      let numTaskDoneStr := st.store.lookup numTasksDone
      if strToLong numTaskDoneStr = numAllTask then
        some (st.setSched i { r with phase := .stopped, running := false })
      else some (st.setSched i { r with phase := .looked numTaskDoneStr })
    else none
  | .lock i =>
    let r := st.sched i
    match r.phase with
    | .looked numTaskDoneStr =>
      let numTaskDone :=
        toInt64 (strToLong numTaskDoneStr + (r.numTaskFin - r.prevNumTaskFin))
      some (st.setSched i { r with phase := .swap numTaskDoneStr (numToStr numTaskDone) })
    | _ => none
  | .request i =>
    let r := st.sched i
    match r.phase with
    | .swap numTaskDoneStr numTaskDoneStrNew =>
      match st.store.compareSwap numTasksDone numTaskDoneStr numTaskDoneStrNew with
      | (0, _, store) => some (st.swapIn i store)
      | (_, queryValue, _) =>
        if queryValue.isEmpty then some (st.setSched i { r with phase := .relook })
        else some (st.setSched i (r.refresh numAllTask queryValue))
    | .relook => some (st.setSched i (r.refresh numAllTask (st.store.lookup numTasksDone)))
    | _ => none

/-- All tasks are still to be run and the counter is at its initial value. -/
def start (n : Nat) (tasks : List TaskMsg) : StatState n where
  store := Store.insert (fun _ => none) numTasksDone "0".toList
  waiting := tasks

section Invariant

/-- The counters of one scheduler are in order, and the value it is about to swap in reports what
it has not reported. -/
structure Ok (r : Recorder) : Prop where
  prev_nonneg : 0 ≤ r.prevNumTaskFin
  prev_le : r.prevNumTaskFin ≤ r.numTaskFin
  fin_le : r.numTaskFin ≤ r.executed.length
  attempt : ∀ seenVal newVal, r.phase = .swap seenVal newVal →
    newVal = numToStr (toInt64 (strToLong seenVal + (r.numTaskFin - r.prevNumTaskFin)))

/-- What the schedulers have reported. -/
def reported (st : StatState n) : Int := ∑ i, (st.sched i).prevNumTaskFin

structure Inv (tasks : List TaskMsg) (st : StatState n) : Prop where
  ok : ∀ i, Ok (st.sched i)
  counter : st.store numTasksDone = some (numToStr st.reported)
  swapped : (st.swapped.map Prod.snd).sum = st.reported
  swapped_by : ∀ i, ((st.swapped.filter (·.1 = i)).map Prod.snd).sum =
    (st.sched i).prevNumTaskFin
  conserve : ∑ i, ((st.sched i).executed : Multiset TaskMsg) + (st.waiting : Multiset TaskMsg) =
    (tasks : Multiset TaskMsg)
  stopped : ∀ i, (st.sched i).running = false → st.waiting = []

variable {tasks : List TaskMsg} {st st' : StatState n} {i : Fin n} {r : Recorder}

theorem forall_setSched {P : Fin n → Recorder → Prop} (h : ∀ j, P j (st.sched j)) (hr : P i r)
    (j : Fin n) : P j ((st.setSched i r).sched j) :=
  (Function.forall_update_iff st.sched P).2 ⟨hr, fun j _ => h j⟩ j

theorem sum_setSched_same {M : Type} [AddCommMonoid M] (f : Recorder → M)
    (h : f r = f (st.sched i)) : ∑ j, f ((st.setSched i r).sched j) = ∑ j, f (st.sched j) :=
  Finset.sum_congr rfl fun j _ =>
    forall_setSched (P := fun j r => f r = f (st.sched j)) (fun _ => rfl) h j

theorem Inv.setSched (h : st.Inv tasks) (hr : Ok r)
    (hprev : r.prevNumTaskFin = (st.sched i).prevNumTaskFin)
    (hexec : r.executed = (st.sched i).executed) (hstop : r.running = false → st.waiting = []) :
    (st.setSched i r).Inv tasks := by
  have hsum : (st.setSched i r).reported = st.reported :=
    sum_setSched_same Recorder.prevNumTaskFin hprev
  have hmul : ∑ j, (((st.setSched i r).sched j).executed : Multiset TaskMsg) =
      ∑ j, ((st.sched j).executed : Multiset TaskMsg) :=
    sum_setSched_same (fun r => (r.executed : Multiset TaskMsg)) (congrArg _ hexec)
  exact
    { ok := forall_setSched h.ok hr
      counter := by
        rw [hsum]
        exact h.counter
      swapped := h.swapped.trans hsum.symm
      swapped_by := forall_setSched
        (P := fun j r => ((st.swapped.filter (·.1 = j)).map Prod.snd).sum = r.prevNumTaskFin)
        h.swapped_by ((h.swapped_by i).trans hprev.symm)
      conserve := hmul ▸ h.conserve
      stopped := forall_setSched (P := fun _ r => r.running = false → st.waiting = [])
        h.stopped hstop }

theorem Inv.setPhase (h : st.Inv tasks) {phase : RecordPhase}
    (hphase : ∀ seenVal newVal, phase = .swap seenVal newVal → newVal = numToStr (toInt64
      (strToLong seenVal + ((st.sched i).numTaskFin - (st.sched i).prevNumTaskFin)))) :
    (st.setSched i { st.sched i with phase }).Inv tasks :=
  h.setSched ⟨(h.ok i).prev_nonneg, (h.ok i).prev_le, (h.ok i).fin_le, hphase⟩ rfl rfl
    (h.stopped i)

theorem Inv.length_eq (h : st.Inv tasks) :
    ∑ i, ((st.sched i).executed.length : Int) + st.waiting.length = tasks.length := by
  have hcard := congrArg Multiset.card h.conserve
  rw [Multiset.card_add, Multiset.card_sum] at hcard
  simp only [Multiset.coe_card] at hcard
  exact_mod_cast hcard

theorem Inv.reported_le (h : st.Inv tasks) :
    st.reported ≤ ∑ i, ((st.sched i).executed.length : Int) :=
  Finset.sum_le_sum fun i _ => (h.ok i).prev_le.trans (h.ok i).fin_le

theorem Inv.reported_nonneg (h : st.Inv tasks) : 0 ≤ st.reported :=
  Finset.sum_nonneg fun i _ => (h.ok i).prev_nonneg

/-- Once as many tasks are reported as there are, every completion has been reported. -/
theorem Inv.all_reported (h : st.Inv tasks) (hall : st.reported = tasks.length) :
    st.waiting = [] ∧ ∀ i, (st.sched i).prevNumTaskFin = (st.sched i).numTaskFin := by
  have hlen := h.length_eq
  have hle := h.reported_le
  have hwait : st.waiting = [] := by
    apply List.eq_nil_of_length_eq_zero
    omega
  refine ⟨hwait, fun i => ?_⟩
  have heq : ∑ i, (st.sched i).prevNumTaskFin = ∑ i, ((st.sched i).executed.length : Int) := by
    rw [hwait] at hlen
    simp only [List.length_nil, Nat.cast_zero, add_zero] at hlen
    exact hall.trans hlen.symm
  have heach := (Finset.sum_eq_sum_iff_of_le fun i _ =>
    (h.ok i).prev_le.trans (h.ok i).fin_le).1 heq i (Finset.mem_univ i)
  have hprev := (h.ok i).prev_le
  have hfin := (h.ok i).fin_le
  omega

theorem Inv.lookup_counter (h : st.Inv tasks) :
    st.store numTasksDone = some (st.store.lookup numTasksDone) := by
  rw [Store.lookup_eq h.counter, h.counter]

theorem Inv.isLong_reported (h : st.Inv tasks) {numAllTask : Int}
    (hall : numAllTask = tasks.length) (hlong : IsLong numAllTask) : IsLong st.reported := by
  have hle := h.reported_le
  have hlen := h.length_eq
  have hnn := h.reported_nonneg
  unfold IsLong at hlong ⊢
  omega

theorem Inv.strToLong_counter (h : st.Inv tasks) {numAllTask : Int}
    (hall : numAllTask = tasks.length) (hlong : IsLong numAllTask) {numTaskDoneStr : Str}
    (hstr : st.store numTasksDone = some numTaskDoneStr) :
    strToLong numTaskDoneStr = st.reported := by
  rw [h.counter, Option.some.injEq] at hstr
  rw [← hstr]
  exact strToLong_numToStr (h.isLong_reported hall hlong)

theorem Inv.refresh (h : st.Inv tasks) {numAllTask : Int} (hall : numAllTask = tasks.length)
    (hlong : IsLong numAllTask) {numTaskDoneStr : Str}
    (hstr : st.store numTasksDone = some numTaskDoneStr) :
    (st.setSched i ((st.sched i).refresh numAllTask numTaskDoneStr)).Inv tasks := by
  have hval := h.strToLong_counter hall hlong hstr
  have hok := h.ok i
  unfold Recorder.refresh
  by_cases hdone : strToLong numTaskDoneStr = numAllTask
  · -- the break: the counter has reached the number of tasks, so nothing is left to report
    have hrep := (h.all_reported (by rw [← hval, hdone, hall])).2 i
    rw [if_pos hdone]
    refine h.setSched ⟨?_, le_refl _, hok.fin_le, ?_⟩ hrep.symm rfl (h.stopped i)
    · exact hok.prev_nonneg.trans hok.prev_le
    · intro seenVal newVal hp
      cases hp
  · rw [if_neg hdone]
    refine h.setPhase fun _ _ hp => ?_
    cases hp
    rfl

theorem reported_swapIn (st : StatState n) (i : Fin n) (store : Store) :
    (st.swapIn i store).reported =
      st.reported + ((st.sched i).numTaskFin - (st.sched i).prevNumTaskFin) := by
  have hsum := sum_add_eq_of_off (f := fun j => ((st.swapIn i store).sched j).prevNumTaskFin)
    (g := fun j => (st.sched j).prevNumTaskFin) i fun j hj =>
      congrArg Recorder.prevNumTaskFin (Function.update_of_ne hj ..)
  have hi : ((st.swapIn i store).sched i).prevNumTaskFin = (st.sched i).numTaskFin := by
    simp [swapIn, Recorder.leaveLoop]
  unfold reported
  omega

theorem Inv.isLong_swapIn (h : st.Inv tasks) {numAllTask : Int}
    (hall : numAllTask = tasks.length) (hlong : IsLong numAllTask) (i : Fin n) :
    IsLong (st.reported + ((st.sched i).numTaskFin - (st.sched i).prevNumTaskFin)) := by
  have hprev := (h.ok i).prev_le
  have hnn := h.reported_nonneg
  have hlen := h.length_eq
  have hle : (st.setSched i (st.sched i).leaveLoop).reported ≤
      ∑ j, ((st.sched j).executed.length : Int) :=
    Finset.sum_le_sum fun j _ => forall_setSched
      (P := fun j r => r.prevNumTaskFin ≤ ((st.sched j).executed.length : Int))
      (fun j => (h.ok j).prev_le.trans (h.ok j).fin_le) (h.ok i).fin_le j
  have hrep : (st.setSched i (st.sched i).leaveLoop).reported = _ :=
    reported_swapIn st i st.store
  unfold IsLong at hlong ⊢
  omega

/-- A successful swap adds to the counter what its scheduler had not reported. -/
theorem Inv.swapIn (h : st.Inv tasks) {numAllTask : Int} (hall : numAllTask = tasks.length)
    (hlong : IsLong numAllTask) {seenVal newVal : Str}
    (hp : (st.sched i).phase = .swap seenVal newVal) (hs : st.store numTasksDone = some seenVal) :
    (st.swapIn i (st.store.insert numTasksDone newVal)).Inv tasks := by
  have hok := h.ok i
  have hrep := reported_swapIn st i (st.store.insert numTasksDone newVal)
  have hnew : newVal =
      numToStr (st.reported + ((st.sched i).numTaskFin - (st.sched i).prevNumTaskFin)) := by
    rw [hok.attempt _ _ hp, h.strToLong_counter hall hlong hs,
      toInt64_eq (h.isLong_swapIn hall hlong i)]
  have hmul : ∑ j, (((st.setSched i (st.sched i).leaveLoop).sched j).executed :
      Multiset TaskMsg) = ∑ j, ((st.sched j).executed : Multiset TaskMsg) :=
    sum_setSched_same (fun r => (r.executed : Multiset TaskMsg)) rfl
  refine
    { ok := forall_setSched h.ok ⟨hok.prev_nonneg.trans hok.prev_le, le_refl _, hok.fin_le, ?_⟩
      counter := ?_
      swapped := ?_
      swapped_by := ?_
      conserve := hmul ▸ h.conserve
      stopped := forall_setSched (P := fun _ r => r.running = false → st.waiting = [])
        h.stopped (h.stopped i) }
  · intro seenVal newVal hp
    cases hp
  · rw [hrep, ← hnew]
    exact Store.insert_self st.store numTasksDone newVal
  · rw [hrep, ← h.swapped]
    simp [StatState.swapIn]
  · intro j
    have hby := h.swapped_by j
    by_cases hj : j = i
    · subst hj
      simp [StatState.swapIn, List.filter_append, hby, Recorder.leaveLoop]
    · simp [StatState.swapIn, List.filter_append, hby, Ne.symm hj, Function.update_of_ne hj]

theorem Inv.runTask (h : st.Inv tasks) {k : Nat} {tm : TaskMsg} (hk : st.waiting[k]? = some tm) :
    (st.runTask i k tm).Inv tasks := by
  have hok := h.ok i
  obtain ⟨hlt, hget⟩ := List.getElem?_eq_some_iff.1 hk
  have hsum := sum_add_eq_of_off
    (f := fun j => (((st.runTask i k tm).sched j).executed : Multiset TaskMsg))
    (g := fun j => ((st.sched j).executed : Multiset TaskMsg)) i fun j hj =>
      congrArg (fun r : Recorder => (r.executed : Multiset TaskMsg))
        (Function.update_of_ne hj ..)
  have hprev : (st.runTask i k tm).reported = st.reported :=
    sum_setSched_same Recorder.prevNumTaskFin rfl
  refine
    { ok := forall_setSched h.ok ⟨hok.prev_nonneg, hok.prev_le, ?_, hok.attempt⟩
      counter := by
        rw [hprev]
        exact h.counter
      swapped := h.swapped.trans hprev.symm
      swapped_by := forall_setSched
        (P := fun j r => ((st.swapped.filter (·.1 = j)).map Prod.snd).sum = r.prevNumTaskFin)
        h.swapped_by (h.swapped_by i)
      conserve := ?_
      stopped := forall_setSched
        (P := fun _ r => r.running = false → st.waiting.eraseIdx k = []) ?_ ?_ }
  · simp only [List.length_append, List.length_singleton]
    have hfin := hok.fin_le
    omega
  · have hself : (((st.runTask i k tm).sched i).executed : Multiset TaskMsg) =
        ((st.sched i).executed : Multiset TaskMsg) + {tm} := by
      simp only [StatState.runTask, Function.update_self, ← Multiset.coe_add,
        Multiset.coe_singleton]
    have hexec : ∑ j, (((st.runTask i k tm).sched j).executed : Multiset TaskMsg) =
        ∑ j, ((st.sched j).executed : Multiset TaskMsg) + {tm} := by
      rw [hself, ← add_assoc, add_right_comm] at hsum
      exact add_right_cancel hsum
    have hwait : ({tm} : Multiset TaskMsg) + (st.waiting.eraseIdx k : Multiset TaskMsg) =
        st.waiting := by
      rw [Multiset.singleton_add, Multiset.cons_coe, Multiset.coe_eq_coe, ← hget]
      exact List.getElem_cons_eraseIdx_perm hlt
    rw [hexec, add_assoc]
    exact (congrArg _ hwait).trans h.conserve
  · intro j hj
    simp [h.stopped j hj]
  · intro hr
    simp [h.stopped i hr]

theorem Inv.countTask (h : st.Inv tasks)
    (hlt : (st.sched i).numTaskFin < (st.sched i).executed.length)
    (hfree : (st.sched i).phase.locked = false) :
    (st.setSched i { st.sched i with numTaskFin := (st.sched i).numTaskFin + 1 }).Inv tasks := by
  have hprev := (h.ok i).prev_le
  refine h.setSched ⟨(h.ok i).prev_nonneg, ?_, ?_, ?_⟩ rfl rfl (h.stopped i)
  · dsimp only
    omega
  · dsimp only
    omega
  · intro seenVal newVal hp
    rw [show (st.sched i).phase = .swap seenVal newVal from hp] at hfree
    cases hfree

theorem Inv.step (h : st.Inv tasks) {numAllTask : Int} (hall : numAllTask = tasks.length)
    (hlong : IsLong numAllTask) {a : StatAct n} (hs : st.step numAllTask a = some st') :
    st'.Inv tasks := by
  cases a with
  | exec i k =>
    obtain ⟨tm, hk, rfl⟩ := Option.map_eq_some_iff.1 hs
    exact h.runTask hk
  | count i =>
    rw [StatState.step, Option.ite_none_right_eq_some] at hs
    obtain ⟨⟨hlt, hfree⟩, hs⟩ := hs
    cases hs
    exact h.countTask hlt hfree
  | lookup i =>
    rw [StatState.step, Option.ite_none_right_eq_some] at hs
    obtain ⟨_, hs⟩ := hs
    dsimp only at hs
    split at hs
    · next hdone =>
      cases hs
      rw [h.strToLong_counter hall hlong h.lookup_counter, hall] at hdone
      have hok := h.ok i
      refine h.setSched ⟨hok.prev_nonneg, hok.prev_le, hok.fin_le, ?_⟩ rfl rfl
        fun _ => (h.all_reported hdone).1
      intro seenVal newVal hp
      cases hp
    · cases hs
      exact h.setPhase fun _ _ hp => by cases hp
  | lock i =>
    simp only [StatState.step] at hs
    split at hs
    · cases hs
      refine h.setPhase fun _ _ hp => ?_
      cases hp
      rfl
    · cases hs
  | request i =>
    simp only [StatState.step] at hs
    split at hs
    · next seenVal newVal hp =>
      by_cases heq : st.store numTasksDone = some seenVal
      · rw [Store.compareSwap, if_pos heq] at hs
        cases hs
        exact h.swapIn hall hlong hp heq
      · rw [Store.compareSwap, if_neg heq] at hs
        simp only [Int.reduceNeg] at hs
        split at hs
        · cases hs
          exact h.setPhase fun _ _ hp => by cases hp
        · cases hs
          exact h.refresh hall hlong h.lookup_counter
    · cases hs
      exact h.refresh hall hlong h.lookup_counter
    · cases hs

theorem inv_start (n : Nat) (tasks : List TaskMsg) : (start n tasks).Inv tasks where
  ok := fun _ => ⟨le_refl _, le_refl _, le_refl _, fun _ _ hp => by cases hp⟩
  counter := by
    have hzero : (start n tasks).reported = 0 := Finset.sum_eq_zero fun _ _ => rfl
    rw [hzero]
    exact Store.insert_self (fun _ => none) numTasksDone "0".toList
  swapped := (Finset.sum_eq_zero fun _ _ => rfl).symm
  swapped_by := fun _ => rfl
  conserve := by simp [start]
  stopped := by
    intro i hi
    cases hi

end Invariant

end StatState

/-- The counter is the sum of what the schedulers have swapped in, each of them has swapped in all
that it takes for reported, and none of them stops before every task has been run. -/
theorem recordingStat_safe {n : Nat} (tasks : List TaskMsg) (numAllTask : Int)
    (hall : numAllTask = tasks.length) (hlong : IsLong numAllTask) (acts : List (StatAct n))
    (st : StatState n)
    (hrun : runActs (StatState.step numAllTask) (StatState.start n tasks) acts = some st) :
    st.store numTasksDone = some (numToStr (st.swapped.map Prod.snd).sum) ∧
      (st.swapped.map Prod.snd).sum ≤ ∑ i, ((st.sched i).executed.length : Int) ∧
      (∀ i, (st.sched i).prevNumTaskFin =
          ((st.swapped.filter (·.1 = i)).map Prod.snd).sum ∧
        (st.sched i).prevNumTaskFin ≤ (st.sched i).numTaskFin ∧
        (st.sched i).numTaskFin ≤ (st.sched i).executed.length) ∧
      ∀ i, (st.sched i).running = false →
        ∑ j, ((st.sched j).executed : Multiset TaskMsg) = (tasks : Multiset TaskMsg) := by
  have h : st.Inv tasks := runActs_invariant (fun _ _ _ hs hinv => hinv.step hall hlong hs) hrun
    (StatState.inv_start n tasks)
  refine ⟨?_, ?_, fun i => ⟨(h.swapped_by i).symm, (h.ok i).prev_le, (h.ok i).fin_le⟩, ?_⟩
  · rw [h.swapped]
    exact h.counter
  · rw [h.swapped]
    exact h.reported_le
  · intro i hi
    have hcons := h.conserve
    rw [h.stopped i hi, Multiset.coe_nil, add_zero] at hcons
    exact hcons

-- Numerals of `Fin 1` and `Fin 2` in the runs below and in those of a cluster rest on these.
instance neZeroOne : NeZero (1 : Nat) := ⟨by decide⟩

instance neZeroTwo : NeZero (2 : Nat) := ⟨by decide⟩

/-- Two schedulers run one task each and race for the counter; the first one stops. -/
def raceActs : List (StatAct 2) :=
  [.exec 0 0, .exec 1 0, .count 0, .count 1, .lookup 0, .lookup 1, .lock 0, .lock 1, .request 1,
    .request 0, .request 0, .lookup 0]

def raceTasks : List TaskMsg :=
  [⟨"00".toList, "u".toList, "d".toList, "sleep 0".toList, 0⟩,
    ⟨"01".toList, "u".toList, "d".toList, "sleep 0".toList, 0⟩]

theorem recordingStat_safe_race :
    ∃ st, runActs (StatState.step 2) (StatState.start 2 raceTasks) raceActs = some st ∧
      (st.sched 0).running = false ∧ st.store numTasksDone = some "2".toList ∧
      ∑ j, ((st.sched j).executed : Multiset TaskMsg) = (raceTasks : Multiset TaskMsg) := by
  have hsome : (runActs (StatState.step 2) (StatState.start 2 raceTasks) raceActs).any
      (fun st => !(st.sched 0).running && st.store numTasksDone == some "2".toList) = true := by
    decide +kernel
  obtain ⟨st, hrun, hst⟩ := (Option.any_eq_true _ _).1 hsome
  have hst' : (st.sched 0).running = false ∧ st.store numTasksDone = some "2".toList := by
    simpa using hst
  refine ⟨st, hrun, hst'.1, hst'.2, ?_⟩
  exact (recordingStat_safe raceTasks 2 (by decide) (by decide) raceActs st hrun).2.2.2 0 hst'.1

end MatrixZht
