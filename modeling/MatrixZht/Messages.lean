import MatrixZht.Util

namespace MatrixZht
open Lib

/-- A word for the single delimiter character `d`, which the source writes twice. -/
abbrev IsField (d : Char) (w : Str) : Prop := IsWord ([d, d].contains ·) w

theorem isField_iff {d : Char} {w : Str} : IsField d w ↔ w ≠ [] ∧ d ∉ w := by
  constructor
  · rintro ⟨hn, hc⟩
    refine ⟨hn, fun h => ?_⟩
    simpa using hc d h
  · rintro ⟨hn, hd⟩
    refine ⟨hn, fun c hc => ?_⟩
    have hne : c ≠ d := fun he => hd (he ▸ hc)
    simp [hne]

theorem not_mem_numToStr {d : Char} (n : Int) (hd : d.isDigit = false) (hm : d ≠ '-') :
    d ∉ numToStr n :=
  fun h => ne_of_mem_decimal hd hm h rfl

theorem isField_numToStr {d : Char} (n : Int) (hd : d.isDigit = false) (hm : d ≠ '-') :
    IsField d (numToStr n) :=
  isField_iff.2 ⟨numToStr_ne_nil n, not_mem_numToStr n hd hm⟩

theorem not_mem_terminate {d e : Char} {ws : List Str} (hne : d ≠ e) (h : ∀ w ∈ ws, d ∉ w) :
    d ∉ terminate [e, e] ws := by
  intro hd
  rcases mem_terminate hd with ⟨w, hw, hc⟩ | hc
  · exact h w hw hc
  · simp [hne] at hc

theorem tokenize_terminate_append {d : Char} {ws : List Str} (h : ∀ w ∈ ws, IsField d w)
    (rest : Str) :
    tokenize (terminate [d, d] ws ++ rest) [d, d] = ws ++ tokenize rest [d, d] := by
  rw [tokenize_eq_tokens, tokenize_eq_tokens]
  exact tokens_terminate_append h (by simp) (by simp) rest

theorem tokenize_terminate {d : Char} {ws : List Str} (h : ∀ w ∈ ws, IsField d w) :
    tokenize (terminate [d, d] ws) [d, d] = ws := by
  rw [tokenize_eq_tokens]
  exact tokens_terminate h (by simp) (by simp)

theorem tokenize_terminate_word {d : Char} {ws : List Str} {w sep : Str}
    (h : ∀ w ∈ ws, IsField d w) (hw : IsField d w) (hs : ∀ c ∈ sep, c = d) :
    tokenize (terminate [d, d] ws ++ (w ++ sep)) [d, d] = ws ++ [w] := by
  rw [tokenize_terminate_append h, tokenize_eq_tokens,
    tokens_append_delims fun c hc => by simp [hs c hc], hw.tokens_eq]

structure TaskMsg where
  taskid : Str
  user : Str
  dir : Str
  cmd : Str
  datalength : Int
deriving DecidableEq

def taskmsgToStr (taskMsg : TaskMsg) : Str :=
  terminate ['@', '@']
    [taskMsg.taskid, taskMsg.user, taskMsg.dir, taskMsg.cmd, numToStr taskMsg.datalength]

/-- `none` is the `exit(1)` taken when the text has no token at all. -/
def strToTaskmsg (str : Str) : Option TaskMsg :=
  match tokenize str ['@', '@'] with
  | [] => none
  | taskid :: vecStr => some
    { taskid
      user := vecStr.getD 0 "kwang".toList
      dir := vecStr.getD 1 "/home/kwang/Documents".toList
      cmd := vecStr.getD 2 "hostname".toList
      datalength := (vecStr[3]?.map strToLong).getD 0 }

/-- The bytes the three nested text formats and the C strings reserve. -/
def reserved : List Char := ['@', '!', '&', '#', '$', '\x00']

/-- A string field that the text formats carry unchanged. -/
def CleanField (s : Str) : Prop := s ≠ [] ∧ ∀ c ∈ s, c ∉ reserved

instance (s : Str) : Decidable (CleanField s) := inferInstanceAs (Decidable (_ ∧ _))

def TaskMsg.Clean (tm : TaskMsg) : Prop :=
  CleanField tm.taskid ∧ CleanField tm.user ∧ CleanField tm.dir ∧ CleanField tm.cmd

instance (tm : TaskMsg) : Decidable tm.Clean := inferInstanceAs (Decidable (_ ∧ _ ∧ _ ∧ _))

theorem CleanField.not_mem {s : Str} (h : CleanField s) {d : Char} (hd : d ∈ reserved) : d ∉ s :=
  fun hs => h.2 d hs hd

theorem CleanField.isField {s : Str} (h : CleanField s) {d : Char} (hd : d ∈ reserved) :
    IsField d s :=
  isField_iff.2 ⟨h.1, h.not_mem hd⟩

theorem isDigit_of_mem_reserved {d : Char} (h : d ∈ reserved) : d.isDigit = false ∧ d ≠ '-' := by
  simp only [reserved, List.mem_cons, List.not_mem_nil, or_false] at h
  rcases h with rfl | rfl | rfl | rfl | rfl | rfl <;> decide

theorem cleanField_numToStr (n : Int) : CleanField (numToStr n) := by
  refine ⟨numToStr_ne_nil n, fun c hc hr => ?_⟩
  obtain ⟨hd, hm⟩ := isDigit_of_mem_reserved hr
  exact not_mem_numToStr n hd hm hc

theorem CleanField.append {s t : Str} (hs : CleanField s) (ht : CleanField t) :
    CleanField (s ++ t) := by
  refine ⟨by simp [hs.1], fun c hc => ?_⟩
  rcases List.mem_append.1 hc with hc | hc
  · exact hs.2 c hc
  · exact ht.2 c hc

theorem strToTaskmsg_of_isField {tm : TaskMsg}
    (h : ∀ w ∈ [tm.taskid, tm.user, tm.dir, tm.cmd], IsField '@' w) :
    strToTaskmsg (taskmsgToStr tm) =
      some { tm with datalength := strToLong (numToStr tm.datalength) } := by
  have hfields : ∀ w ∈ [tm.taskid, tm.user, tm.dir, tm.cmd, numToStr tm.datalength],
      IsField '@' w := by
    simp only [List.forall_mem_cons, List.not_mem_nil, false_implies, implies_true, and_true] at h ⊢
    exact ⟨h.1, h.2.1, h.2.2.1, h.2.2.2, isField_numToStr _ (by decide) (by decide)⟩
  rw [strToTaskmsg, taskmsgToStr, tokenize_terminate hfields]
  rfl

theorem strToTaskmsg_fields {tm : TaskMsg} (h : tm.Clean) :
    strToTaskmsg (taskmsgToStr tm) =
      some { tm with datalength := strToLong (numToStr tm.datalength) } := by
  apply strToTaskmsg_of_isField
  simp only [List.forall_mem_cons, List.not_mem_nil, false_implies, implies_true, and_true]
  exact ⟨h.1.isField (by decide), h.2.1.isField (by decide), h.2.2.1.isField (by decide),
    h.2.2.2.isField (by decide)⟩

theorem strToTaskmsg_taskmsgToStr {tm : TaskMsg} (h : tm.Clean) (hl : IsLong tm.datalength) :
    strToTaskmsg (taskmsgToStr tm) = some tm := by
  rw [strToTaskmsg_fields h, strToLong_numToStr hl]

/-- A task whose texts, which may be empty, contain no reserved byte. -/
def TaskMsg.DelimFree (tm : TaskMsg) : Prop :=
  ∀ w ∈ [tm.taskid, tm.user, tm.dir, tm.cmd], ∀ c ∈ w, c ∉ reserved

instance (tm : TaskMsg) : Decidable tm.DelimFree :=
  inferInstanceAs (Decidable (∀ w ∈ _, ∀ c ∈ w, c ∉ reserved))

theorem TaskMsg.Clean.delimFree {tm : TaskMsg} (h : tm.Clean) : tm.DelimFree := by
  obtain ⟨hid, huser, hdir, hcmd⟩ := h
  simp only [DelimFree, List.forall_mem_cons, List.not_mem_nil, false_implies, implies_true,
    and_true]
  exact ⟨hid.2, huser.2, hdir.2, hcmd.2⟩

theorem TaskMsg.DelimFree.not_mem_str {tm : TaskMsg} (h : tm.DelimFree) {d : Char}
    (hd : d ∈ reserved) (ha : d ≠ '@') : d ∉ taskmsgToStr tm := by
  refine not_mem_terminate ha fun w hw hc => ?_
  have hsplit : w ∈ [tm.taskid, tm.user, tm.dir, tm.cmd] ++ [numToStr tm.datalength] := hw
  rcases List.mem_append.1 hsplit with hw | hw
  · exact h w hw d hc hd
  · rw [List.mem_singleton.1 hw] at hc
    exact (cleanField_numToStr _).not_mem hd hc

theorem TaskMsg.Clean.not_mem_str {tm : TaskMsg} (h : tm.Clean) {d : Char} (hd : d ∈ reserved)
    (ha : d ≠ '@') : d ∉ taskmsgToStr tm :=
  h.delimFree.not_mem_str hd ha

theorem taskmsgToStr_ne_nil (tm : TaskMsg) : taskmsgToStr tm ≠ [] := by
  simp [taskmsgToStr]

structure MatrixMsg where
  msgtype : Str
  extrainfo : Option Str := none
  count : Option Int := none
  tasks : List Str := []
deriving DecidableEq

def mmToStr (mm : MatrixMsg) : Str :=
  terminate ['&', '&']
    [mm.msgtype,
      mm.extrainfo.getD "noextrainfo".toList,
      (mm.count.map fun count => numToStr (toInt32 count)).getD "nocount".toList,
      if mm.tasks.length > 0 then terminate ['!', '!'] mm.tasks else "notask".toList]

theorem mmToStr_tasks {msgtype : Str} {count : Int} {tasks : List Str} (hne : tasks ≠ []) :
    mmToStr { msgtype, count := some count, tasks } =
      terminate ['&', '&'] [msgtype, "noextrainfo".toList, numToStr (toInt32 count)] ++
        (terminate ['!', '!'] tasks ++ ['&', '&']) := by
  have hlen : tasks.length > 0 := List.length_pos_iff.2 hne
  simp only [mmToStr, if_pos hlen, Option.getD_none, Option.map_some, Option.getD_some,
    terminate_cons, terminate_nil, List.append_assoc, List.append_nil]

/-- `none` is the exception `vector::at` throws when a field is missing. -/
def strToMm (str : Str) : Option MatrixMsg :=
  match tokenize str ['&', '&'] with
  | msgtype :: extrainfo :: count :: tasks :: _ => some
    { msgtype
      extrainfo := if extrainfo ≠ "noextrainfo".toList then some extrainfo else none
      count := if count ≠ "nocount".toList then some (strToInt count) else none
      tasks := if tasks ≠ "notask".toList then tokenize tasks ['!', '!'] else [] }
  | _ => none

/-- A message that its own text format carries unchanged. -/
structure MatrixMsg.Clean (mm : MatrixMsg) : Prop where
  msgtype : IsField '&' mm.msgtype
  extrainfo : ∀ info ∈ mm.extrainfo, IsField '&' info ∧ info ≠ "noextrainfo".toList
  count : ∀ count ∈ mm.count, IsInt count
  tasks : ∀ task ∈ mm.tasks, IsField '!' task ∧ '&' ∉ task

theorem isField_word {d : Char} {s : String} (h : s.toList ≠ [] ∧ d ∉ s.toList) :
    IsField d s.toList :=
  isField_iff.2 h

theorem MatrixMsg.clean_of_extrainfo {msgtype info : Str} (htype : IsField '&' msgtype)
    (hinfo : IsField '&' info) (hne : info ≠ "noextrainfo".toList) :
    MatrixMsg.Clean ⟨msgtype, some info, none, []⟩ where
  msgtype := htype
  extrainfo := by
    intro info' hinfo'
    cases hinfo'
    exact ⟨hinfo, hne⟩
  count := by simp
  tasks := by simp

theorem numToStr_ne_word {s : String} {c : Char} (n : Int) (hc : c ∈ s.toList)
    (hd : c.isDigit = false) (hm : c ≠ '-') : numToStr n ≠ s.toList := by
  intro he
  rw [← he] at hc
  exact not_mem_numToStr n hd hm hc

theorem terminate_ne_word {d : Char} {ws : List Str} {s : String} (hw : ws ≠ [])
    (hd : d ∉ s.toList) : terminate [d, d] ws ≠ s.toList := by
  intro he
  obtain ⟨w, ws, rfl⟩ := List.exists_cons_of_ne_nil hw
  rw [← he] at hd
  simp at hd

theorem MatrixMsg.Clean.fields {mm : MatrixMsg} (h : mm.Clean) :
    ∀ w ∈ [mm.msgtype, mm.extrainfo.getD "noextrainfo".toList,
      (mm.count.map fun count => numToStr (toInt32 count)).getD "nocount".toList,
      if mm.tasks.length > 0 then terminate ['!', '!'] mm.tasks else "notask".toList],
      IsField '&' w := by
  simp only [List.mem_cons, List.not_mem_nil, or_false]
  rintro w (rfl | rfl | rfl | rfl)
  · exact h.msgtype
  · cases he : mm.extrainfo with
    | none => exact isField_word (by decide)
    | some info => exact (h.extrainfo info he).1
  · cases mm.count with
    | none => exact isField_word (by decide)
    | some n => exact isField_numToStr _ (by decide) (by decide)
  · split
    · next hlen =>
      refine isField_iff.2 ⟨?_, not_mem_terminate (by decide) fun t ht => (h.tasks t ht).2⟩
      rw [ne_eq, terminate_eq_nil (by simp)]
      exact List.ne_nil_of_length_pos hlen
    · exact isField_word (by decide)

theorem readCount_numToStr {n : Int} (hn : IsInt n) :
    (if numToStr (toInt32 n) ≠ "nocount".toList then some (strToInt (numToStr (toInt32 n)))
      else none) = some n := by
  have hne : numToStr (toInt32 n) ≠ "nocount".toList :=
    numToStr_ne_word _ (c := 'n') (by decide) (by decide) (by decide)
  rw [if_pos hne, toInt32_eq hn, strToInt_numToStr hn]

theorem strToMm_mmToStr {mm : MatrixMsg} (h : mm.Clean) : strToMm (mmToStr mm) = some mm := by
  rw [strToMm, mmToStr, tokenize_terminate h.fields]
  obtain ⟨msgtype, extrainfo, count, tasks⟩ := mm
  have hinfo : (if extrainfo.getD "noextrainfo".toList ≠ "noextrainfo".toList then
      some (extrainfo.getD "noextrainfo".toList) else none) = extrainfo := by
    cases extrainfo with
    | none => rfl
    | some info => exact if_pos (h.extrainfo info rfl).2
  have hcount : (if (count.map fun c => numToStr (toInt32 c)).getD "nocount".toList ≠
      "nocount".toList then
        some (strToInt ((count.map fun c => numToStr (toInt32 c)).getD "nocount".toList))
      else none) = count := by
    cases count with
    | none => rfl
    | some n => exact readCount_numToStr (h.count n rfl)
  have htasks : (if (if tasks.length > 0 then terminate ['!', '!'] tasks else "notask".toList) ≠
      "notask".toList then
        tokenize (if tasks.length > 0 then terminate ['!', '!'] tasks else "notask".toList)
          ['!', '!']
      else []) = tasks := by
    by_cases hlen : tasks.length > 0
    · have hne : terminate ['!', '!'] tasks ≠ "notask".toList :=
        terminate_ne_word (List.ne_nil_of_length_pos hlen) (by decide)
      rw [if_pos hlen, if_pos hne, tokenize_terminate fun t ht => (h.tasks t ht).1]
    · have hnil : tasks = [] := List.eq_nil_of_length_eq_zero (by omega)
      subst hnil
      rfl
  simp only [hinfo, hcount, htasks]

/-- A message is read alike wherever in the delimiters after its tasks the text ends. A task whose
text has an '@' is not taken for the word that stands for no task. -/
theorem strToMm_tasks_cut {msgtype extrainfo count task ex amp : Str} {tasks : List Str}
    (hwords : ∀ w ∈ [msgtype, extrainfo, count], IsField '&' w)
    (htasks : ∀ t ∈ tasks, IsField '!' t ∧ '&' ∉ t) (htask : IsField '!' task ∧ '&' ∉ task)
    (hat : '@' ∈ task) (hex : ∀ c ∈ ex, c = '!') (hamp : ∀ c ∈ amp, c = '&') :
    strToMm (terminate ['&', '&'] [msgtype, extrainfo, count] ++
      ((terminate ['!', '!'] tasks ++ (task ++ ex)) ++ amp)) = some
        { msgtype
          extrainfo := if extrainfo ≠ "noextrainfo".toList then some extrainfo else none
          count := if count ≠ "nocount".toList then some (strToInt count) else none
          tasks := tasks ++ [task] } := by
  have hmem : '@' ∈ terminate ['!', '!'] tasks ++ (task ++ ex) := by simp [hat]
  have hne : terminate ['!', '!'] tasks ++ (task ++ ex) ≠ "notask".toList := by
    intro he
    rw [he] at hmem
    exact absurd hmem (by decide)
  have hbody : IsField '&' (terminate ['!', '!'] tasks ++ (task ++ ex)) := by
    refine isField_iff.2 ⟨List.ne_nil_of_mem hmem, ?_⟩
    simp only [List.mem_append, not_or]
    exact ⟨not_mem_terminate (by decide) fun t ht => (htasks t ht).2, htask.2,
      fun hc => absurd (hex _ hc) (by decide)⟩
  rw [strToMm, tokenize_terminate_word hwords hbody hamp]
  simp only [List.cons_append, List.nil_append, if_pos hne,
    tokenize_terminate_word (fun t ht => (htasks t ht).1) htask.1 hex]

/-- A message that can be read although it is cut differs from the whole one in its tasks only. -/
theorem strToMm_take {str : Str} {k : Nat} {mm mm' : MatrixMsg} (h : strToMm str = some mm)
    (hcut : strToMm (str.take k) = some mm') :
    mm'.msgtype = mm.msgtype ∧ mm'.extrainfo = mm.extrainfo ∧ mm'.count = mm.count := by
  unfold strToMm at hcut
  split at hcut
  · next msgtype extrainfo count tasks more htok =>
    obtain rfl := Option.some.inj hcut
    have hlast : tokens (['&', '&'].contains ·) (str.take k) =
        ([msgtype, extrainfo, count] ++ (tasks :: more).dropLast) ++
          [(tasks :: more).getLast (List.cons_ne_nil _ _)] := by
      rw [← tokenize_eq_tokens, htok, List.append_assoc, List.dropLast_append_getLast]
      rfl
    obtain ⟨v, rest, hwhole⟩ := tokens_append_of_last hlast (str.drop k)
    rw [List.take_append_drop, List.append_assoc] at hwhole
    obtain ⟨tasks', more', hsome⟩ := List.exists_cons_of_ne_nil (l :=
      (tasks :: more).dropLast ++ ((tasks :: more).getLast (List.cons_ne_nil _ _) ++ v) :: rest)
      (by simp)
    rw [hsome] at hwhole
    rw [strToMm, tokenize_eq_tokens, hwhole] at h
    obtain rfl := Option.some.inj h
    exact ⟨rfl, rfl, rfl⟩
  · cases hcut

section Read

variable {str : Str} {c : Char}

theorem not_mem_of_mem_tokenize {d : Char} {w : Str} (h : w ∈ tokenize str [d, d])
    (hc : c = d ∨ c ∉ str) : c ∉ w := by
  rw [tokenize_eq_tokens] at h
  rcases hc with rfl | hc
  · exact (isField_iff.1 (isWord_of_mem_tokens h)).2
  · exact fun hw => hc ((sublist_of_mem_tokens h).subset hw)

theorem forall_of_strToTaskmsg {P : Str → Prop} {tm : TaskMsg} (h : strToTaskmsg str = some tm)
    (hread : ∀ w ∈ tokenize str ['@', '@'], P w)
    (hword : P "kwang".toList ∧ P "/home/kwang/Documents".toList ∧ P "hostname".toList) :
    ∀ field ∈ [tm.taskid, tm.user, tm.dir, tm.cmd], P field := by
  unfold strToTaskmsg at h
  split at h
  · cases h
  · next taskid vecStr htok =>
    obtain rfl := Option.some.inj h
    rw [htok] at hread
    have hget {i : Nat} {word : Str} (hw : P word) : P (vecStr.getD i word) := by
      rw [List.getD_eq_getElem?_getD]
      cases hi : vecStr[i]? with
      | none => exact hw
      | some w => exact hread w (List.mem_cons_of_mem _ (List.mem_of_getElem? hi))
    simp only [List.forall_mem_cons, List.not_mem_nil, false_implies, implies_true, and_true]
    exact ⟨hread taskid List.mem_cons_self, hget hword.1, hget hword.2.1, hget hword.2.2⟩

theorem not_mem_of_strToTaskmsg {tm : TaskMsg} (h : strToTaskmsg str = some tm)
    (hc : c = '@' ∨ c ∉ str)
    (hword : c ∉ "kwang".toList ∧ c ∉ "/home/kwang/Documents".toList ∧ c ∉ "hostname".toList) :
    ∀ field ∈ [tm.user, tm.dir, tm.cmd], c ∉ field := by
  have hall := forall_of_strToTaskmsg h (fun w hw => not_mem_of_mem_tokenize hw hc) hword
  exact fun field hfield => hall field (List.mem_cons_of_mem _ hfield)

theorem not_mem_of_strToMm {mm : MatrixMsg} (h : strToMm str = some mm) :
    ∀ task ∈ mm.tasks, '&' ∉ task ∧ '!' ∉ task := by
  unfold strToMm at h
  split at h
  · next msgtype extrainfo count tasks _ htok =>
    obtain rfl := Option.some.inj h
    have hmem : tasks ∈ tokenize str ['&', '&'] := by simp [htok]
    have htasks : '&' ∉ tasks := not_mem_of_mem_tokenize hmem (.inl rfl)
    intro task ht
    dsimp only at ht
    split at ht
    · exact ⟨not_mem_of_mem_tokenize ht (.inr htasks), not_mem_of_mem_tokenize ht (.inl rfl)⟩
    · cases ht
  · cases h

end Read

end MatrixZht
