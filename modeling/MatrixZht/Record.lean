import MatrixZht.Messages

namespace MatrixZht
open Lib

/-- The task and status record of `metazht.proto`. -/
structure Value where
  id : Str
  indegree : Option Int := none
  parents : List Str := []
  children : List Str := []
  datanamelist : List Str := []
  datasize : List Int := []
  alldatasize : Option Int := none
  tasklength : Option Int := none
  numtaskfin : Option Int := none
  numworksteal : Option Int := none
  numworkstealfail : Option Int := none
  numtaskwait : Option Int := none
  numtaskready : Option Int := none
  numcoreavilable : Option Int := none
  numallcore : Option Int := none
  outputsize : Option Int := none
  submittime : Option Int := none
deriving DecidableEq

/-- An optional number is written in decimal, or as its absence word. -/
def numField (absent : String) (num : Option Int) : Str := (num.map numToStr).getD absent.toList

def listField (absent : String) (items : List Str) : Str :=
  if items.length > 0 then terminate ['?', '?'] items else absent.toList

def valueFields (value : Value) : List Str :=
  [value.id,
    numField "noindegree" value.indegree,
    listField "noparents" value.parents,
    listField "nochildren" value.children,
    listField "nodataname" value.datanamelist,
    listField "nodatasize" (value.datasize.map numToStr),
    numField "noalldatasize" value.alldatasize,
    numField "notasklength" value.tasklength,
    numField "nonumtaskfin" value.numtaskfin,
    numField "nonumworksteal" value.numworksteal,
    numField "nonumworkstealfail" value.numworkstealfail,
    numField "nonumtaskwait" value.numtaskwait,
    numField "nonumtaskready" value.numtaskready,
    numField "nonumcoreavail" value.numcoreavilable,
    numField "nonumallcore" value.numallcore,
    numField "nooutputsize" value.outputsize,
    numField "nosubmittime" value.submittime]

def valueToStr (value : Value) : Str := terminate ['~', '~'] (valueFields value)

/-- Reads an optional number with `str_to_num<T>`, given as `read`. -/
def readNum (read : Str → Int) (absent : String) (field : Str) : Option Int :=
  if field ≠ absent.toList then some (read field) else none

def readList (absent : String) (field : Str) : List Str :=
  if field ≠ absent.toList then tokenize field ['?', '?'] else []

/-- `none` is the `exit(1)` taken when fewer than 17 fields are found. The output size is written
as a `long` and read as an `int`. -/
def strToValue (str : Str) : Option Value :=
  match tokenize str ['~', '~'] with
  | f₀ :: f₁ :: f₂ :: f₃ :: f₄ :: f₅ :: f₆ :: f₇ :: f₈ :: f₉ :: f₁₀ :: f₁₁ :: f₁₂ :: f₁₃ :: f₁₄ ::
      f₁₅ :: f₁₆ :: _ => some
    { id := f₀
      indegree := readNum strToLong "noindegree" f₁
      parents := readList "noparents" f₂
      children := readList "nochildren" f₃
      datanamelist := readList "nodataname" f₄
      datasize := (readList "nodatasize" f₅).map strToLong
      alldatasize := readNum strToLong "noalldatasize" f₆
      tasklength := readNum strToLong "notasklength" f₇
      numtaskfin := readNum strToLong "nonumtaskfin" f₈
      numworksteal := readNum strToLong "nonumworksteal" f₉
      numworkstealfail := readNum strToLong "nonumworkstealfail" f₁₀
      numtaskwait := readNum strToInt "nonumtaskwait" f₁₁
      numtaskready := readNum strToInt "nonumtaskready" f₁₂
      numcoreavilable := readNum strToInt "nonumcoreavail" f₁₃
      numallcore := readNum strToInt "nonumallcore" f₁₄
      outputsize := readNum strToInt "nooutputsize" f₁₅
      submittime := readNum strToLong "nosubmittime" f₁₆ }
  | _ => none

/-- The string elements of a record that the record format carries unchanged. -/
def IsItem (s : Str) : Prop := IsField '~' s ∧ '?' ∉ s

/-- A record that its text format carries unchanged. -/
structure Value.Clean (v : Value) : Prop where
  id : IsField '~' v.id
  indegree : ∀ n ∈ v.indegree, IsLong n
  parents : ∀ s ∈ v.parents, IsItem s
  children : ∀ s ∈ v.children, IsItem s
  datanamelist : ∀ s ∈ v.datanamelist, IsItem s
  datasize : ∀ n ∈ v.datasize, IsLong n
  alldatasize : ∀ n ∈ v.alldatasize, IsLong n
  tasklength : ∀ n ∈ v.tasklength, IsLong n
  numtaskfin : ∀ n ∈ v.numtaskfin, IsLong n
  numworksteal : ∀ n ∈ v.numworksteal, IsLong n
  numworkstealfail : ∀ n ∈ v.numworkstealfail, IsLong n
  numtaskwait : ∀ n ∈ v.numtaskwait, IsInt n
  numtaskready : ∀ n ∈ v.numtaskready, IsInt n
  numcoreavilable : ∀ n ∈ v.numcoreavilable, IsInt n
  numallcore : ∀ n ∈ v.numallcore, IsInt n
  outputsize : ∀ n ∈ v.outputsize, IsInt n
  submittime : ∀ n ∈ v.submittime, IsLong n

theorem IsItem.isField {s : Str} (h : IsItem s) : IsField '?' s :=
  isField_iff.2 ⟨(isField_iff.1 h.1).1, h.2⟩

theorem isItem_iff {s : Str} : IsItem s ↔ s ≠ [] ∧ '~' ∉ s ∧ '?' ∉ s := by
  rw [IsItem, isField_iff, and_assoc]

instance (s : Str) : Decidable (IsItem s) := decidable_of_iff _ isItem_iff.symm

theorem isItem_numToStr (n : Int) : IsItem (numToStr n) :=
  isItem_iff.2 ⟨numToStr_ne_nil n, not_mem_numToStr n (by decide) (by decide),
    not_mem_numToStr n (by decide) (by decide)⟩

theorem IsItem.append {s t : Str} (hs : IsItem s) (ht : IsItem t) : IsItem (s ++ t) := by
  rw [isItem_iff] at *
  simp_all

theorem isField_numField {absent : String} (n : Option Int)
    (h : absent.toList ≠ [] ∧ '~' ∉ absent.toList) : IsField '~' (numField absent n) := by
  cases n with
  | none => exact isField_iff.2 h
  | some n => exact isField_numToStr n (by decide) (by decide)

theorem isField_listField {absent : String} {items : List Str}
    (h : absent.toList ≠ [] ∧ '~' ∉ absent.toList) (hi : ∀ s ∈ items, IsItem s) :
    IsField '~' (listField absent items) := by
  unfold listField
  split
  · next hlen =>
    refine isField_iff.2 ⟨?_, not_mem_terminate (by decide) fun s hs => ?_⟩
    · rw [ne_eq, terminate_eq_nil (by simp)]
      exact List.ne_nil_of_length_pos hlen
    · exact (isItem_iff.1 (hi s hs)).2.1
  · exact isField_iff.2 h

theorem readNum_numField_map (read : Str → Int) {absent : String} (n : Option Int)
    (hw : 'n' ∈ absent.toList) :
    readNum read absent (numField absent n) = n.map fun m => read (numToStr m) := by
  cases n with
  | none => simp [readNum, numField]
  | some m => exact if_pos (numToStr_ne_word m hw (by decide) (by decide))

theorem readNum_numField {read : Str → Int} {absent : String} {n : Option Int}
    (hw : 'n' ∈ absent.toList) (h : ∀ m ∈ n, read (numToStr m) = m) :
    readNum read absent (numField absent n) = n := by
  rw [readNum_numField_map read n hw]
  cases n with
  | none => rfl
  | some m => exact congrArg some (h m rfl)

theorem readList_listField {absent : String} {items : List Str} (hw : '?' ∉ absent.toList)
    (hi : ∀ s ∈ items, IsItem s) : readList absent (listField absent items) = items := by
  unfold readList listField
  by_cases hlen : items.length > 0
  · have hne : terminate ['?', '?'] items ≠ absent.toList :=
      terminate_ne_word (List.ne_nil_of_length_pos hlen) hw
    rw [if_pos hlen, if_pos hne, tokenize_terminate fun s hs => (hi s hs).isField]
  · have hnil : items = [] := List.eq_nil_of_length_eq_zero (by omega)
    simp [hnil]

theorem isItem_of_mem_map_numToStr {ns : List Int} {s : Str} (h : s ∈ ns.map numToStr) :
    IsItem s := by
  obtain ⟨n, _, rfl⟩ := List.mem_map.1 h
  exact isItem_numToStr n

theorem Value.Clean.isField_fields {v : Value} {outputsize : Option Int}
    (h : ({ v with outputsize } : Value).Clean) : ∀ w ∈ valueFields v, IsField '~' w := by
  simp only [valueFields, List.forall_mem_cons, List.not_mem_nil, false_implies, implies_true,
    and_true]
  have hsize : IsField '~' (listField "nodatasize" (v.datasize.map numToStr)) :=
    isField_listField (by decide) fun s hs => isItem_of_mem_map_numToStr hs
  exact ⟨h.id, isField_numField _ (by decide), isField_listField (by decide) h.parents,
    isField_listField (by decide) h.children, isField_listField (by decide) h.datanamelist,
    hsize, isField_numField _ (by decide), isField_numField _ (by decide),
    isField_numField _ (by decide), isField_numField _ (by decide),
    isField_numField _ (by decide), isField_numField _ (by decide),
    isField_numField _ (by decide), isField_numField _ (by decide),
    isField_numField _ (by decide), isField_numField _ (by decide),
    isField_numField _ (by decide)⟩

theorem map_strToLong_numToStr {ns : List Int} (h : ∀ n ∈ ns, IsLong n) :
    (ns.map numToStr).map strToLong = ns := by
  rw [List.map_map]
  calc ns.map (strToLong ∘ numToStr) = ns.map id :=
        List.map_congr_left fun n hn => strToLong_numToStr (h n hn)
    _ = ns := List.map_id ns

theorem strToValue_valueToStr_outputsize {v : Value} {outputsize : Option Int}
    (h : ({ v with outputsize } : Value).Clean) : strToValue (valueToStr v) =
      some { v with outputsize := v.outputsize.map fun n => strToInt (numToStr n) } := by
  rw [strToValue, valueToStr, tokenize_terminate h.isField_fields]
  have hlong {n : Option Int} (hn : ∀ m ∈ n, IsLong m) : ∀ m ∈ n, strToLong (numToStr m) = m :=
    fun m hm => strToLong_numToStr (hn m hm)
  have hint {n : Option Int} (hn : ∀ m ∈ n, IsInt m) : ∀ m ∈ n, strToInt (numToStr m) = m :=
    fun m hm => strToInt_numToStr (hn m hm)
  have hsize : (readList "nodatasize" (listField "nodatasize" (v.datasize.map numToStr))).map
      strToLong = v.datasize := by
    rw [readList_listField (by decide) fun s hs => isItem_of_mem_map_numToStr hs,
      map_strToLong_numToStr h.datasize]
  cases v
  simp only [valueFields, Option.some.injEq, Value.mk.injEq]
  exact ⟨trivial, readNum_numField (by decide) (hlong h.indegree),
    readList_listField (by decide) h.parents, readList_listField (by decide) h.children,
    readList_listField (by decide) h.datanamelist, hsize,
    readNum_numField (by decide) (hlong h.alldatasize),
    readNum_numField (by decide) (hlong h.tasklength),
    readNum_numField (by decide) (hlong h.numtaskfin),
    readNum_numField (by decide) (hlong h.numworksteal),
    readNum_numField (by decide) (hlong h.numworkstealfail),
    readNum_numField (by decide) (hint h.numtaskwait),
    readNum_numField (by decide) (hint h.numtaskready),
    readNum_numField (by decide) (hint h.numcoreavilable),
    readNum_numField (by decide) (hint h.numallcore),
    readNum_numField_map strToInt _ (by decide),
    readNum_numField (by decide) (hlong h.submittime)⟩

/-- A clean record is read back as it was written. -/
theorem strToValue_valueToStr {v : Value} (h : v.Clean) : strToValue (valueToStr v) = some v := by
  have hsize : (v.outputsize.map fun n => strToInt (numToStr n)) = v.outputsize := by
    cases ho : v.outputsize with
    | none => rfl
    | some n => exact congrArg some (strToInt_numToStr (h.outputsize n ho))
  have hread := @strToValue_valueToStr_outputsize v v.outputsize h
  rwa [hsize] at hread

/-- The one field whose reader is narrower than its writer decides the round trip. -/
theorem strToValue_valueToStr_iff {v : Value} (h : ({ v with outputsize := none } : Value).Clean) :
    strToValue (valueToStr v) = some v ↔ ∀ n ∈ v.outputsize, IsInt n := by
  rw [strToValue_valueToStr_outputsize h]
  obtain ⟨id, indegree, parents, children, datanamelist, datasize, alldatasize, tasklength,
    numtaskfin, numworksteal, numworkstealfail, numtaskwait, numtaskready, numcoreavilable,
    numallcore, outputsize, submittime⟩ := v
  simp only [Option.some.injEq, Value.mk.injEq, true_and, and_true]
  cases outputsize with
  | none => simp
  | some n =>
    simp only [Option.map_some, Option.some.injEq, Option.mem_def, forall_eq']
    exact ⟨fun he => he ▸ strToInt_isInt _, strToInt_numToStr⟩

theorem clean_of_isField {id : Str} (h : IsField '~' id) : ({ id } : Value).Clean :=
  ⟨h, by simp, by simp, by simp, by simp, by simp, by simp, by simp, by simp, by simp, by simp,
    by simp, by simp, by simp, by simp, by simp, by simp⟩

theorem strToValue_valueToStr_iff_widest :
    strToValue (valueToStr { id := "00".toList, outputsize := some 2147483647 }) =
      some { id := "00".toList, outputsize := some 2147483647 } := by
  apply (strToValue_valueToStr_iff _).2
  · decide
  · exact clean_of_isField (isField_iff.2 (by decide))

/-- An output size of more than 31 bits is read as zero. -/
theorem strToValue_valueToStr_wide :
    strToValue (valueToStr { id := "00".toList, outputsize := some 2147483648 }) ≠
      some { id := "00".toList, outputsize := some 2147483648 } := by
  have hclean : ({ id := "00".toList } : Value).Clean :=
    clean_of_isField (isField_iff.2 (by decide))
  rw [@strToValue_valueToStr_outputsize _ none hclean]
  decide

section Read

variable {str : Str} {value : Value}

theorem isField_of_mem_tokenize {d : Char} {w : Str} (h : w ∈ tokenize str [d, d]) : IsField d w :=
  isWord_of_mem_tokens (tokenize_eq_tokens _ _ ▸ h)

theorem isItem_of_mem_readList {absent : String} {field s : Str} (hf : IsField '~' field)
    (h : s ∈ readList absent field) : IsItem s := by
  unfold readList at h
  split at h
  · have hs := isField_iff.1 (isField_of_mem_tokenize h)
    have hsub : s.Sublist field := sublist_of_mem_tokens (tokenize_eq_tokens _ _ ▸ h)
    exact isItem_iff.2 ⟨hs.1, fun hmem => (isField_iff.1 hf).2 (hsub.subset hmem), hs.2⟩
  · cases h

theorem mem_readNum {read : Str → Int} {absent : String} {field : Str} {n : Int}
    (h : n ∈ readNum read absent field) : n = read field := by
  unfold readNum at h
  split at h
  · exact (Option.some.inj h).symm
  · cases h

/-- Whatever text it is read from, a record survives being written and read again. -/
theorem clean_of_strToValue (h : strToValue str = some value) : value.Clean := by
  unfold strToValue at h
  split at h
  · next htok =>
    have hfield : ∀ w ∈ tokenize str ['~', '~'], IsField '~' w := fun w hw =>
      isField_of_mem_tokenize hw
    rw [htok] at hfield
    simp only [List.forall_mem_cons] at hfield
    obtain ⟨h₀, _, h₂, h₃, h₄, _⟩ := hfield
    have hlong {absent : String} {field : Str} :
        ∀ n ∈ readNum strToLong absent field, IsLong n := fun n hn =>
      mem_readNum hn ▸ strToLong_isLong field
    have hint {absent : String} {field : Str} :
        ∀ n ∈ readNum strToInt absent field, IsInt n := fun n hn =>
      mem_readNum hn ▸ strToInt_isInt field
    obtain rfl := Option.some.inj h
    exact
      { id := h₀
        indegree := hlong
        parents := fun s hs => isItem_of_mem_readList h₂ hs
        children := fun s hs => isItem_of_mem_readList h₃ hs
        datanamelist := fun s hs => isItem_of_mem_readList h₄ hs
        datasize := by
          intro n hn
          obtain ⟨s, _, rfl⟩ := List.mem_map.1 hn
          exact strToLong_isLong s
        alldatasize := hlong
        tasklength := hlong
        numtaskfin := hlong
        numworksteal := hlong
        numworkstealfail := hlong
        numtaskwait := hint
        numtaskready := hint
        numcoreavilable := hint
        numallcore := hint
        outputsize := hint
        submittime := hlong }
  · cases h

end Read

end MatrixZht
