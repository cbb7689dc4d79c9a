import MatrixZht.Cluster.Client

namespace MatrixZht
open Lib

/-- The entries a notification adds survive the text format. -/
structure Landing.Ok (l : Landing) : Prop where
  id : IsItem l.id
  key : IsItem l.cqItem.key
  dataSize : IsLong l.cqItem.dataSize

/-- The record of task `k` after the notifications `landed`, in their order. -/
def recordOf (index : Int) (adj : AdjList) (k : Int) (landed : List Landing) (time : Option Int) :
    Value where
  id := taskId index k
  indegree := some ((adj.parents k).length - landed.length)
  parents := landed.map (·.id)
  children := (adj.children k).map (taskId index)
  datanamelist := landed.map (·.cqItem.key)
  datasize := landed.map (·.cqItem.dataSize)
  alldatasize :=
    if landed = [] then none else some (toInt64 (landed.map (·.cqItem.dataSize)).sum)
  submittime := time

/-- The text is the record of task `k` of a client after the notifications `landed`. -/
def IsRecord (conf : ClientConf) (k : Int) (landed : List Landing) (text : Str) : Prop :=
  ∃ adj time, conf.adjList = some adj ∧ k ∈ adj ∧ (∀ l ∈ landed, l.Ok) ∧
    landed.length < 2 ^ 31 ∧ (∀ t ∈ time, IsLong t) ∧
    text = valueToStr (recordOf conf.index adj k landed time)

theorem isItem_taskId (index k : Int) : IsItem (taskId index k) :=
  (isItem_numToStr index).append (isItem_numToStr k)

theorem ne_taskId {key : Str} {index k : Int} {d : Char} (hd : d ∈ key)
    (hdig : d.isDigit = false) (hm : d ≠ '-') : key ≠ taskId index k := by
  rintro rfl
  rcases List.mem_append.1 hd with h | h
  · exact not_mem_numToStr _ hdig hm h
  · exact not_mem_numToStr _ hdig hm h

theorem toInt64_add_left (a b : Int) : toInt64 (toInt64 a + b) = toInt64 (a + b) :=
  Int.bmod_add_bmod

section Record

variable {conf : ClientConf} {adj : AdjList} {k : Int} {landed : List Landing}
  {time : Option Int} {text : Str}

theorem isLong_indegree (hadj : conf.adjList = some adj) (hl : landed.length < 2 ^ 31) :
    IsLong ((adj.parents k).length - landed.length) := by
  have hle := length_parents_le hadj k
  have hlt := conf.numTask_lt
  unfold IsLong
  omega

theorem recordOf_clean (hadj : conf.adjList = some adj) (hok : ∀ l ∈ landed, l.Ok)
    (hl : landed.length < 2 ^ 31) (ht : ∀ t ∈ time, IsLong t) :
    (recordOf conf.index adj k landed time).Clean := by
  have hsize : ∀ n ∈ (recordOf conf.index adj k landed time).alldatasize, IsLong n := by
    intro n hn
    simp only [recordOf] at hn
    split at hn
    · cases hn
    · cases hn
      exact isLong_toInt64 _
  have hnone {p : Int → Prop} : ∀ n ∈ (none : Option Int), p n := by simp
  exact
    { id := (isItem_taskId _ _).1
      indegree := by
        intro n hn
        cases hn
        exact isLong_indegree hadj hl
      parents := by
        intro s hs
        obtain ⟨l, hl, rfl⟩ := List.mem_map.1 hs
        exact (hok l hl).id
      children := by
        intro s hs
        obtain ⟨c, _, rfl⟩ := List.mem_map.1 hs
        exact isItem_taskId _ _
      datanamelist := by
        intro s hs
        obtain ⟨l, hl, rfl⟩ := List.mem_map.1 hs
        exact (hok l hl).key
      datasize := by
        intro n hn
        obtain ⟨l, hl, rfl⟩ := List.mem_map.1 hn
        exact (hok l hl).dataSize
      alldatasize := hsize
      tasklength := hnone
      numtaskfin := hnone
      numworksteal := hnone
      numworkstealfail := hnone
      numtaskwait := hnone
      numtaskready := hnone
      numcoreavilable := hnone
      numallcore := hnone
      outputsize := hnone
      submittime := ht }

theorem taskInfo_eq_recordOf (hadj : conf.adjList = some adj) {existList : List Int}
    (hk : (k, existList) ∈ adj.toList) :
    taskInfo conf.index (genDagIndegree adj) k existList =
      recordOf conf.index adj k [] none := by
  have hchild : adj.children k = existList := by
    rw [AdjList.children, Std.TreeMap.getD_eq_getD_getElem?,
      Std.TreeMap.mem_toList_iff_getElem?_eq_some.1 hk, Option.getD_some]
  simp [taskInfo, recordOf, getD_genDagIndegree (genDagAdjlist_ok hadj), hchild]

theorem isRecord_taskInfo (hadj : conf.adjList = some adj) {existList : List Int}
    (hk : (k, existList) ∈ adj.toList) :
    IsRecord conf k [] (valueToStr (taskInfo conf.index (genDagIndegree adj) k existList)) := by
  have hmem : k ∈ adj := by
    rw [← Std.TreeMap.isSome_getElem?_iff_mem, Std.TreeMap.mem_toList_iff_getElem?_eq_some.1 hk]
    rfl
  exact ⟨adj, none, hadj, hmem, by simp, by decide, by simp, by rw [taskInfo_eq_recordOf hadj hk]⟩

theorem IsRecord.strToValue_eq (h : IsRecord conf k landed text) :
    ∃ adj time, conf.adjList = some adj ∧ k ∈ adj ∧
      strToValue text = some (recordOf conf.index adj k landed time) := by
  obtain ⟨adj, time, hadj, hk, hok, hl, ht, rfl⟩ := h
  exact ⟨adj, time, hadj, hk, strToValue_valueToStr (recordOf_clean hadj hok hl ht)⟩

theorem IsRecord.setSubmittime (h : IsRecord conf k landed text) {value : Value}
    (hv : strToValue text = some value) (t : Int) :
    IsRecord conf k landed (valueToStr { value with submittime := some (toInt64 t) }) := by
  obtain ⟨adj, time, hadj, hk, hok, hl, ht, rfl⟩ := h
  rw [strToValue_valueToStr (recordOf_clean hadj hok hl ht)] at hv
  cases hv
  refine ⟨adj, some (toInt64 t), hadj, hk, hok, hl, ?_, rfl⟩
  intro x hx
  cases hx
  exact isLong_toInt64 t

theorem addParent_recordOf (hadj : conf.adjList = some adj) (hl : landed.length + 1 < 2 ^ 31)
    (l : Landing) : addParent l.id l.cqItem (recordOf conf.index adj k landed time) =
      recordOf conf.index adj k (landed ++ [l]) time := by
  have hlen : (landed ++ [l]).length < 2 ^ 31 := by simpa using hl
  have hind : toInt64 ((adj.parents k).length - landed.length - 1) =
      (adj.parents k).length - (landed ++ [l]).length := by
    have heq : ((adj.parents k).length - landed.length - 1 : Int) =
        (adj.parents k).length - (landed ++ [l]).length := by
      simp only [List.length_append, List.length_singleton, Nat.cast_add, Nat.cast_one]
      omega
    rw [heq, toInt64_eq (isLong_indegree hadj hlen)]
  have hsum : toInt64 ((recordOf conf.index adj k landed time).alldatasize.getD 0 +
      l.cqItem.dataSize) = toInt64 ((landed ++ [l]).map (·.cqItem.dataSize)).sum := by
    by_cases hnil : landed = []
    · simp [recordOf, hnil]
    · simp [recordOf, hnil, toInt64_add_left]
  have hne : landed ++ [l] ≠ [] := by simp
  simp only [addParent, hsum]
  simp [recordOf, hind]

theorem IsRecord.notify (h : IsRecord conf k landed text) {l : Landing} (hl : l.Ok) {new : Str}
    (hnew : notifyAttempt l.id l.cqItem text = some new) :
    IsRecord conf k (landed ++ [l]) new := by
  obtain ⟨adj, time, hadj, hk, hok, hlen, ht, rfl⟩ := h
  rw [notifyAttempt, strToValue_valueToStr (recordOf_clean hadj hok hlen ht), Option.bind_some,
    Option.ite_none_right_eq_some] at hnew
  obtain ⟨hroom, hnew⟩ := hnew
  have hlt : landed.length + 1 < 2 ^ 31 := by
    simp only [recordOf, List.length_map] at hroom
    omega
  rw [addParent_recordOf hadj hlt] at hnew
  cases hnew
  refine ⟨adj, time, hadj, hk, ?_, by simpa using hlt, ht, rfl⟩
  intro l' hl'
  rcases List.mem_append.1 hl' with hl' | hl'
  · exact hok l' hl'
  · rw [List.mem_singleton.1 hl']
    exact hl

end Record

/-- A text that names no children, whatever it is read as. -/
def Inert (text : Str) : Prop := ∀ value, strToValue text = some value → value.children = []

theorem strToValue_of_clean {text : Str} (h : '~' ∉ text) : strToValue text = none := by
  have htok : tokenize text ['~', '~'] = if text.isEmpty then [] else [text] := by
    rw [tokenize_eq_tokens]
    refine tokens_of_clean fun c hc => ?_
    have hne : c ≠ '~' := fun he => h (he ▸ hc)
    simp [hne]
  rw [strToValue, htok]
  cases text <;> rfl

@[simp] theorem strToValue_nil : strToValue [] = none := strToValue_of_clean (by simp)

theorem inert_numToStr (n : Int) : Inert (numToStr n) := by
  intro value hv
  rw [strToValue_of_clean (not_mem_numToStr n (by decide) (by decide))] at hv
  cases hv

theorem eq_some_of_strToValue {store : Store} {key : Str} {value : Value}
    (h : strToValue (store.lookup key) = some value) :
    ∃ text, store key = some text ∧ strToValue text = some value := by
  cases hkey : store key with
  | none =>
    rw [Store.lookup_of_none hkey, strToValue_nil] at h
    cases h
  | some text =>
    rw [Store.lookup_eq hkey] at h
    exact ⟨text, rfl, h⟩

theorem isInt_outputsize {text : Str} {value : Value} (h : strToValue text = some value) :
    IsInt (value.outputsize.getD 0) := by
  unfold strToValue at h
  split at h
  · cases h
    simp only [readNum]
    split
    · exact strToInt_isInt _
    · decide
  · cases h

theorem recordVal_clean {config : Config} {id : Str} {counters : Sched.Counters} {s : Sched}
    (hid : IsItem id) : (s.recordVal config id counters).Clean := by
  have hnone {p : Int → Prop} : ∀ n ∈ (none : Option Int), p n := by simp
  have hlong (x : Int) : ∀ n ∈ some (toInt64 x), IsLong n := by
    intro n hn
    cases hn
    exact isLong_toInt64 x
  have hint (x : Int) : ∀ n ∈ some (toInt32 x), IsInt n := by
    intro n hn
    cases hn
    exact isInt_toInt32 x
  exact
    { id := hid.1
      indegree := hnone
      parents := by simp [Sched.recordVal]
      children := by simp [Sched.recordVal]
      datanamelist := by simp [Sched.recordVal]
      datasize := by simp [Sched.recordVal]
      alldatasize := hnone
      tasklength := hnone
      numtaskfin := hlong _
      numworksteal := hlong _
      numworkstealfail := hlong _
      numtaskwait := hint _
      numtaskready := hint _
      numcoreavilable := hint _
      numallcore := hint _
      outputsize := hnone
      submittime := hnone }

theorem inert_recordVal {config : Config} {id : Str} {counters : Sched.Counters} {s : Sched}
    (hid : IsItem id) : Inert (valueToStr (s.recordVal config id counters)) := by
  intro value hv
  rw [strToValue_valueToStr (recordVal_clean hid)] at hv
  cases hv
  rfl

end MatrixZht
