import MatrixZht.Cluster.Client

namespace MatrixZht
open Lib

/-- A task is read back from its text, alone and as one of the tasks of a message whose other parts
are clean. -/
def TaskMsg.Survives (tm : TaskMsg) : Prop :=
  strToTaskmsg (taskmsgToStr tm) = some tm ∧
    ∀ (mm : MatrixMsg) (before after : List Str), ({ mm with tasks := before ++ after }).Clean →
      ∃ mm', strToMm (mmToStr { mm with tasks := before ++ taskmsgToStr tm :: after }) = some mm' ∧
        mm'.tasks[before.length]?.bind strToTaskmsg = some tm

section Survives

variable {tm : TaskMsg}

theorem isField_taskId {d : Char} (index k : Int) (hd : d.isDigit = false) (hm : d ≠ '-') :
    IsField d (taskId index k) :=
  (isField_numToStr index hd hm).append fun _ hc => (isField_numToStr k hd hm).2 _ hc

theorem survives_of_isField (h : ∀ w ∈ [tm.taskid, tm.user, tm.dir, tm.cmd],
    IsField '@' w ∧ '&' ∉ w ∧ '!' ∉ w) (hl : IsLong tm.datalength) : tm.Survives := by
  have hread : strToTaskmsg (taskmsgToStr tm) = some tm := by
    rw [strToTaskmsg_of_isField fun w hw => (h w hw).1, strToLong_numToStr hl]
  have hfree {d : Char} (hd : d.isDigit = false) (hm : d ≠ '-') (ha : d ≠ '@')
      (hw : ∀ w ∈ [tm.taskid, tm.user, tm.dir, tm.cmd], d ∉ w) : d ∉ taskmsgToStr tm := by
    refine not_mem_terminate ha ?_
    simp only [List.forall_mem_cons, List.not_mem_nil, false_implies, implies_true, and_true]
      at hw ⊢
    exact ⟨hw.1, hw.2.1, hw.2.2.1, hw.2.2.2, not_mem_numToStr _ hd hm⟩
  have hamp : '&' ∉ taskmsgToStr tm :=
    hfree (by decide) (by decide) (by decide) fun w hw => (h w hw).2.1
  have hbang : '!' ∉ taskmsgToStr tm :=
    hfree (by decide) (by decide) (by decide) fun w hw => (h w hw).2.2
  refine ⟨hread, fun mm before after hclean => ?_⟩
  have hmm : ({ mm with tasks := before ++ taskmsgToStr tm :: after } : MatrixMsg).Clean :=
    { msgtype := hclean.msgtype
      extrainfo := hclean.extrainfo
      count := hclean.count
      tasks := by
        intro task ht
        rcases List.mem_append.1 ht with ht | ht
        · exact hclean.tasks task (List.mem_append_left _ ht)
        · rcases List.mem_cons.1 ht with rfl | ht
          · exact ⟨isField_iff.2 ⟨taskmsgToStr_ne_nil tm, hbang⟩, hamp⟩
          · exact hclean.tasks task (List.mem_append_right _ ht) }
  refine ⟨_, strToMm_mmToStr hmm, ?_⟩
  simp only [List.getElem?_append_right (Nat.le_refl _), Nat.sub_self, List.getElem?_cons_zero,
    Option.bind_some]
  exact hread

theorem Survives.not_mem (h : tm.Survives) {c : Char} (hc : c ∈ ['@', '&', '!']) :
    ∀ field ∈ [tm.user, tm.dir, tm.cmd], c ∉ field := by
  have hword : c ∉ "kwang".toList ∧ c ∉ "/home/kwang/Documents".toList ∧
      c ∉ "hostname".toList := by
    revert c
    decide
  obtain ⟨mm, hmm, htask⟩ := h.2 { msgtype := ['m'] } [] []
    ⟨isField_iff.2 (by decide), by simp, by simp, by simp⟩
  obtain ⟨task, ht, hread⟩ := Option.bind_eq_some_iff.1 htask
  have hfree := not_mem_of_strToMm hmm task (List.mem_of_getElem? ht)
  simp only [List.mem_cons, List.not_mem_nil, or_false] at hc
  rcases hc with rfl | rfl | rfl
  · exact not_mem_of_strToTaskmsg hread (.inl rfl) hword
  · exact not_mem_of_strToTaskmsg hread (.inr hfree.1) hword
  · exact not_mem_of_strToTaskmsg hread (.inr hfree.2) hword

/-- A task that a client reads from a line survives exactly if the three tokens it takes from the
line contain no delimiter of the two formats. -/
theorem survives_iff {line : Str} (hline : 3 ≤ (tokens ([' '].contains ·) line).length)
    (index k : Int) : ∃ tm, ClientConf.readTask (taskId index k) line = some tm ∧
      ∀ datalength, IsLong datalength → (({ tm with datalength } : TaskMsg).Survives ↔
        ∀ field ∈ (tokens ([' '].contains ·) line).take 3, ∀ c ∈ ['@', '&', '!'], c ∉ field) := by
  obtain ⟨user, dir, cmd, rest, htok⟩ : ∃ user dir cmd rest,
      tokens ([' '].contains ·) line = user :: dir :: cmd :: rest := by
    match tokens ([' '].contains ·) line, hline with
    | user :: dir :: cmd :: rest, _ => exact ⟨user, dir, cmd, rest, rfl⟩
  have hwords : ∀ w ∈ [user, dir, cmd], w ≠ [] := by
    intro w hw
    refine (isWord_of_mem_tokens (p := ([' '].contains ·)) (l := line) ?_).1
    rw [htok]
    exact List.mem_append_left rest hw
  refine ⟨_, readTask_eq htok, fun datalength hl => ?_⟩
  have htake : (tokens ([' '].contains ·) line).take 3 = [user, dir, cmd] := by rw [htok]; rfl
  rw [htake]
  constructor
  · exact fun h field hf c hc => Survives.not_mem h hc field hf
  · intro h
    refine survives_of_isField ?_ hl
    intro w hw
    rcases List.mem_cons.1 hw with rfl | hw
    · exact ⟨isField_taskId index k (by decide) (by decide),
        (isField_iff.1 (isField_taskId index k (by decide) (by decide))).2,
        (isField_iff.1 (isField_taskId index k (by decide) (by decide))).2⟩
    · exact ⟨isField_iff.2 ⟨hwords w hw, h w hw '@' (by decide)⟩, h w hw '&' (by decide),
        h w hw '!' (by decide)⟩

theorem survives_iff_hostname :
    ∃ tm, ClientConf.readTask (taskId 0 7) "u /home hostname -f".toList = some tm ∧
      ({ tm with datalength := 5 } : TaskMsg).Survives := by
  have hline : 3 ≤ (tokens ([' '].contains ·) "u /home hostname -f".toList).length := by decide
  obtain ⟨tm, htm, hiff⟩ := survives_iff hline 0 7
  exact ⟨tm, htm, (hiff 5 (by decide)).2 (by decide)⟩

/-- The command of a task may contain a delimiter. -/
theorem not_survives_at :
    ∃ tm, ClientConf.readTask (taskId 0 0) "u /home a@b".toList = some tm ∧ ¬ tm.Survives := by
  refine ⟨⟨"00".toList, "u".toList, "/home".toList, "a@b".toList, 0⟩, by decide, fun h => ?_⟩
  have hread := h.1
  revert hread
  decide

end Survives

section Unique

/-- The numeral of `c'` is the one of `c`, followed by the numeral of a positive number. -/
def Extends (c c' : Nat) : Prop := ∃ m : Nat, 0 < m ∧ numToStr c' = numToStr c ++ numToStr m

/-- Two clients never give the same id to two tasks. -/
def IdsUnique (c c' : Nat) : Prop := ∀ i i' : Nat, taskId c i = taskId c' i' → c = c' ∧ i = i'

variable {c c' : Nat}

theorem numToStr_natCast (n : Nat) : numToStr n = Nat.toDigits 10 n := decimal_natCast n

theorem numToStr_natCast_injective : Function.Injective fun n : Nat => numToStr n :=
  fun _ _ h => Int.ofNat.inj (decimal_injective h)

theorem numToStr_mul_ten {m : Nat} (hm : 0 < m) :
    numToStr (10 * m : Nat) = numToStr m ++ numToStr (0 : Nat) := by
  rw [numToStr_natCast, numToStr_natCast, numToStr_natCast]
  exact (Nat.toDigits_append_toDigits (b := 10) (d := 0) (by decide) hm (by decide)).symm

/-- The first task of the longer index has the id of a task of the shorter one. -/
theorem taskId_eq_of_extends (h : Extends c c') :
    ∃ i : Nat, taskId c i = taskId c' (0 : Nat) ∧ c ≠ c' := by
  obtain ⟨m, hm, he⟩ := h
  refine ⟨10 * m, ?_, ?_⟩
  · rw [taskId, taskId, he, numToStr_mul_ten hm, List.append_assoc]
  · rintro rfl
    exact numToStr_ne_nil m (List.append_right_eq_self.1 he.symm)

theorem extends_of_taskId_eq {i i' : Nat} {u : Str} (hc : numToStr c' = numToStr c ++ u)
    (hi : numToStr i = u ++ numToStr i') (hu : u ≠ []) : Extends c c' := by
  rw [numToStr_natCast i] at hi
  obtain ⟨m, hm, rfl⟩ := exists_toDigits_of_append hi hu (numToStr_ne_nil _)
  exact ⟨m, hm, by rw [hc, numToStr_natCast m]⟩

/-- The ids of two clients are disjoint exactly if neither index extends the other. -/
theorem idsUnique_iff : IdsUnique c c' ↔ ¬ Extends c c' ∧ ¬ Extends c' c := by
  constructor
  · intro h
    refine ⟨fun hext => ?_, fun hext => ?_⟩
    · obtain ⟨i, hid, hne⟩ := taskId_eq_of_extends hext
      exact hne (h i 0 hid).1
    · obtain ⟨i, hid, hne⟩ := taskId_eq_of_extends hext
      exact hne (h 0 i hid.symm).1.symm
  · rintro ⟨hext, hext'⟩ i i' hid
    rcases List.append_eq_append_iff.1 hid with ⟨u, hc, hi⟩ | ⟨u, hc, hi⟩
    · by_cases hu : u = []
      · rw [hu, List.append_nil] at hc
        rw [hu, List.nil_append] at hi
        exact ⟨(numToStr_natCast_injective hc).symm, numToStr_natCast_injective hi⟩
      · exact absurd (extends_of_taskId_eq hc hi hu) hext
    · by_cases hu : u = []
      · rw [hu, List.append_nil] at hc
        rw [hu, List.nil_append] at hi
        exact ⟨numToStr_natCast_injective hc, (numToStr_natCast_injective hi).symm⟩
      · exact absurd (extends_of_taskId_eq hc hi hu) hext'

/-- Task 11 of client 1 and task 1 of client 11. -/
theorem not_idsUnique_eleven : ¬ IdsUnique 1 11 := by
  intro h
  have hid := h 11 1 (by decide)
  revert hid
  decide

end Unique

end MatrixZht
