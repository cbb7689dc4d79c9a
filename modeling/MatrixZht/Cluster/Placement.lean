import Mathlib.Algebra.Order.BigOperators.Group.List
import MatrixZht.Cluster.Push

namespace MatrixZht
open Lib

/-- The number that `task_ready_process` returns. -/
def Flag.code : Flag → Int
  | ws => 0
  | loc => 1
  | push _ => 2

/-- What `task_ready_process` sends for the task, and to whom. -/
def Flag.sent (tm : TaskMsg) : Flag → List (Str × Str)
  | push maxDataScheduler => [(maxDataScheduler, pushText tm)]
  | _ => []

/-- At `i` is the first of the largest pieces of data, its scheduler and its key. -/
structure Value.FirstLargest (value : Value) (i : Nat) (size : Int) (parent key : Str) : Prop where
  datasize : value.datasize[i]? = some size
  parents : value.parents[i]? = some parent
  datanamelist : value.datanamelist[i]? = some key
  max : ∀ s ∈ value.datasize, s ≤ size
  first : ∀ j < i, ∀ s, value.datasize[j]? = some s → s < size

/-- A record as the notifications of the parents leave it. -/
structure Value.Complete (value : Value) : Prop extends value.Aligned where
  named : ∀ parent ∈ value.parents, parent ≠ []
  total : value.alldatasize.getD 0 = value.datasize.sum

/-- Where a task belongs whose largest piece of data `key` is at `parent`. -/
def Placed (config : Config) (id : Str) (localData : Str → Option Str) (parent key : Str)
    (tm : TaskMsg) (flag : Flag) : Prop :=
  if parent = id ∨ config.cache ∧ (localData key).isSome then flag.code = 1 ∧ flag.sent tm = []
  else flag.code = 2 ∧ flag.sent tm = [(parent, pushText tm)] ∧ parent ≠ []

section Largest

variable {value : Value}

theorem exists_pos_of_sum_pos {l : List Int} (h : 0 < l.sum) : ∃ x ∈ l, 0 < x := by
  have hlt : (l.map fun _ => (0 : Int)).sum < (l.map id).sum := by simpa using h
  exact List.exists_lt_of_sum_lt _ _ hlt

theorem Value.Aligned.firstLargest (h : value.Aligned) (hpos : 0 < value.datasize.sum) :
    ∃ i size parent key, value.largest = some (size, parent, key) ∧
      value.FirstLargest i size parent key := by
  -- every size is that of a piece in the list that is scanned
  have hzip {j : Nat} {s : Int} (hs : value.datasize[j]? = some s) : ∃ parent key,
      (value.datasize.zip (value.parents.zip value.datanamelist))[j]? =
        some (s, parent, key) := by
    obtain ⟨hj, _⟩ := List.getElem?_eq_some_iff.1 hs
    have hparent := List.getElem?_eq_getElem (h.parents ▸ hj)
    have hkey := List.getElem?_eq_getElem (h.datanamelist ▸ hj)
    exact ⟨_, _, List.getElem?_zip_eq_some.2 ⟨hs, List.getElem?_zip_eq_some.2 ⟨hparent, hkey⟩⟩⟩
  obtain ⟨s, hs, hspos⟩ := exists_pos_of_sum_pos hpos
  obtain ⟨j, hj⟩ := List.mem_iff_getElem?.1 hs
  obtain ⟨parent, key, hmem⟩ := hzip hj
  have hlarger : ∃ x ∈ value.datasize.zip (value.parents.zip value.datanamelist),
      (-1000000 : Int) < x.1 :=
    ⟨_, List.mem_of_getElem? hmem, show (-1000000 : Int) < s by omega⟩
  have hscan := maxData_eq_scanMax h.parents h.datanamelist (-1000000, [], [])
  have hfound := @scanMax_eq_getElem _ _ _ Prod.fst (-1000000, [], []) _ hlarger
  obtain ⟨⟨size, parent, key⟩, hbest⟩ : ∃ best, scanMax Prod.fst ((-1000000 : Int), [], [])
      (value.datasize.zip (value.parents.zip value.datanamelist)) = best := ⟨_, rfl⟩
  rw [hbest] at hscan hfound
  obtain ⟨i, hi, _, hmax, hfirst⟩ := hfound
  obtain ⟨hsize, hrest⟩ := List.getElem?_zip_eq_some.1 hi
  obtain ⟨hparent, hkey⟩ := List.getElem?_zip_eq_some.1 hrest
  refine ⟨i, size, parent, key, hscan, hsize, hparent, hkey, fun s hs => ?_, fun j hj s hs => ?_⟩
  · obtain ⟨j, hj⟩ := List.mem_iff_getElem?.1 hs
    obtain ⟨parent, key, hmem⟩ := hzip hj
    exact hmax _ (List.mem_of_getElem? hmem)
  · obtain ⟨parent, key, hmem⟩ := hzip hs
    exact hfirst j hj _ hmem

end Largest

/-- A task with little data stays where it can be stolen. Any other task goes where the first of
its largest pieces of data is. -/
theorem taskReadyProcess_placed (config : Config) (id : Str) (localData : Str → Option Str)
    (value : Value) (tm : TaskMsg) (hvalue : value.Complete)
    (hthreshold : 0 ≤ config.dataSizeThreshold) :
    ∃ tm' flag, taskReadyProcess config id localData value tm = some (tm', flag) ∧
      (flag.code = 0 ↔ value.alldatasize.getD 0 ≤ config.dataSizeThreshold) ∧
      (flag.code = 0 → tm' = { tm with datalength := value.alldatasize.getD 0 } ∧
        flag.sent tm' = []) ∧
      (flag.code ≠ 0 → ∃ i size parent key, value.FirstLargest i size parent key ∧
        tm' = { tm with datalength := size } ∧
        Placed config id localData parent key tm' flag) := by
  by_cases hsmall : value.alldatasize.getD 0 ≤ config.dataSizeThreshold
  · refine ⟨_, _, if_pos hsmall, iff_of_true rfl hsmall, fun _ => ⟨rfl, rfl⟩, ?_⟩
    exact fun hcode => absurd rfl hcode
  · have hpos : 0 < value.datasize.sum := by
      rw [← hvalue.total]
      omega
    obtain ⟨i, size, parent, key, hlargest, hfirst⟩ := hvalue.firstLargest hpos
    have hne := hvalue.named parent (List.mem_of_getElem? hfirst.parents)
    rw [Value.largest] at hlargest
    rw [taskReadyProcess, if_neg hsmall, hlargest]
    by_cases hhere : parent = id ∨ config.cache ∧ (localData key).isSome
    · have hcode : Flag.loc.code ≠ 0 := Int.one_ne_zero
      refine ⟨{ tm with datalength := size }, .loc, ?_, iff_of_false hcode hsmall,
        fun h => absurd h hcode, fun _ => ⟨i, size, parent, key, hfirst, rfl, ?_⟩⟩
      · by_cases hself : parent = id
        · simp [hself]
        · simp [hself, hhere.resolve_left hself]
      · rw [Placed, if_pos hhere]
        exact ⟨rfl, rfl⟩
    · obtain ⟨hself, hcache⟩ := not_or.1 hhere
      have hcode : (Flag.push parent).code ≠ 0 := by simp [Flag.code]
      refine ⟨{ tm with datalength := size }, .push parent, ?_, iff_of_false hcode hsmall,
        fun h => absurd h hcode, fun _ => ⟨i, size, parent, key, hfirst, rfl, ?_⟩⟩
      · simp only [Option.map_some, if_neg hself, if_neg hcache]
      · rw [Placed, if_neg hhere]
        exact ⟨rfl, rfl, hne⟩

/-- Of three pieces the second and the third are the largest. -/
def threePieces : Value :=
  { id := "01".toList
    parents := ["host1".toList, "host2".toList, "host3".toList]
    datanamelist := ["host100".toList, "host200".toList, "host300".toList]
    datasize := [3, 9, 9]
    alldatasize := some 21 }

theorem threePieces_complete : threePieces.Complete where
  parents := rfl
  datanamelist := rfl
  named := by decide
  total := by decide

theorem taskReadyProcess_placed_second :
    ∃ tm' flag, taskReadyProcess pushConfig "host0".toList (fun _ => none) threePieces childTask =
        some (tm', flag) ∧
      (flag.code = 0 ↔ threePieces.alldatasize.getD 0 ≤ pushConfig.dataSizeThreshold) ∧
      (flag.code = 0 → tm' = { childTask with datalength := threePieces.alldatasize.getD 0 } ∧
        flag.sent tm' = []) ∧
      (flag.code ≠ 0 → ∃ i size parent key, threePieces.FirstLargest i size parent key ∧
        tm' = { childTask with datalength := size } ∧
        Placed pushConfig "host0".toList (fun _ => none) parent key tm' flag) :=
  taskReadyProcess_placed pushConfig "host0".toList (fun _ => none) threePieces childTask
    threePieces_complete (by decide)

end MatrixZht
