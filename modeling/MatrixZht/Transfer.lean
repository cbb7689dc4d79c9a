import MatrixZht.Messages

namespace MatrixZht
open Lib

def bufSize : Nat := 8192

/-- The C string at the start of a zero-filled buffer. -/
def cstr (buf : Str) : Str := buf.takeWhile (· ≠ '\x00')

/-- The results of successive `recv` calls on a stream: each returns at least one byte and leaves
room for the terminating zero of the buffer. -/
structure Cut (stream : Str) (reads : List Str) : Prop where
  pos : ∀ r ∈ reads, r ≠ []
  room : ∀ r ∈ reads, r.length ≤ bufSize - 1
  flatten : reads.flatten = stream

/-- `recv_mul`: appends reads until one ends with `$`. The end of `reads` is the connection being
closed, where `recv` returns no byte. It returns the buffer and the reads not made. -/
def recvMul : List Str → Str → Str × List Str
  | [], buf => (buf, [])
  | read :: reads, buf =>
    let tmpBuf := cstr read
    if tmpBuf.getLast? = some '$' then (buf ++ tmpBuf, reads) else recvMul reads (buf ++ tmpBuf)

def sendMul (buf : Str) (last : Bool) : Str := buf ++ ['#', '#'] ++ if last then ['$'] else []

/-- The message of a package: its type, the number of tasks and the encoded tasks. -/
def batchMsg (peer : Str) (count : Int) (tasks : List TaskMsg) : MatrixMsg where
  msgtype := peer ++ " send tasks".toList
  count := some count
  tasks := tasks.map taskmsgToStr

/-- The package loop of `send_batch_tasks` over the tasks still to be sent. A package size below
one never ends the loop, which is running out of fuel here. -/
def sendBatchLoop (maxTaskPerPkg : Int) (peer : Str) : Nat → List TaskMsg → Option Str
  | 0, _ => none
  | fuel + 1, taskVec =>
    if taskVec.length = 0 then some []
    else
      let last : Bool := taskVec.length ≤ maxTaskPerPkg
      let numTaskSendPerPkg : Int := if last then taskVec.length else maxTaskPerPkg
      let strTasks :=
        mmToStr (batchMsg peer numTaskSendPerPkg (taskVec.take numTaskSendPerPkg.toNat))
      (sendBatchLoop maxTaskPerPkg peer fuel (taskVec.drop numTaskSendPerPkg.toNat)).map
        (sendMul strTasks last ++ ·)

/-- The bytes `send_batch_tasks` writes. -/
def sendBatchTasks (maxTaskPerPkg : Int) (taskVec : List TaskMsg) (peer : Str) : Option Str :=
  let strNumTask := mmToStr (batchMsg peer taskVec.length [])
  if taskVec.length = 0 then some (sendMul strNumTask true)
  else
    (sendBatchLoop maxTaskPerPkg peer (taskVec.length + 1) taskVec).map
      (sendMul strNumTask false ++ ·)

/-- What the receiver reads out of a batch: the announced number of tasks and the packages. -/
structure Batch where
  numTask : Int
  pkgs : List (List TaskMsg)
deriving DecidableEq

/-- Decodes the first `mm.count()` tasks of a package. `none` when the text lacks a field, there
are fewer tasks than announced, or a task is empty. -/
def decodePkg (str : Str) : Option (List TaskMsg) :=
  (strToMm str).bind fun mm =>
    let count := (mm.count.getD 0).toNat
    if mm.tasks.length < count then none else (mm.tasks.take count).mapM strToTaskmsg

/-- The decoding that `recv_task_from_scheduler` and `recv_task_from_client` share. The outer
`none` is an exception or exit, the inner one the early return on a header without packages. -/
def decodeBatch (taskStr : Str) : Option (Option Batch) :=
  match tokenize taskStr.dropLast ['#', '#'] with
  | [] => none
  | [_] => some none
  | head :: pkgs =>
    (strToMm head).bind fun mmNumTask =>
      (pkgs.mapM decodePkg).map fun pkgs =>
        some { numTask := toInt32 (mmNumTask.count.getD 0), pkgs }

/-- The tasks of each package are pushed onto the queue in order. The `Bool` is the value returned
to `steal_task`. -/
def recvTaskFromScheduler (reads : List Str) (wsQueue : List TaskMsg) :
    Option (Bool × List TaskMsg) :=
  (decodeBatch (recvMul reads []).1).map fun batch =>
    match batch with
    | none => (false, wsQueue)
    | some batch => (true, batch.pkgs.foldl (· ++ ·) wsQueue)

theorem cstr_append {s : Str} (h : '\x00' ∉ s) (t : Str) : cstr (s ++ t) = s ++ cstr t := by
  apply List.takeWhile_append_of_pos
  intro c hc
  have hne : c ≠ '\x00' := fun he => h (he ▸ hc)
  simp [hne]

theorem cstr_eq {s : Str} (h : '\x00' ∉ s) : cstr s = s := by
  have he := cstr_append h []
  simpa [cstr] using he

theorem nul_not_mem_cstr (s : Str) : '\x00' ∉ cstr s := by
  intro h
  have hne := List.mem_takeWhile_imp h
  simp at hne

theorem cstr_append_nul {s : Str} (h : '\x00' ∉ s) (t : Str) : cstr (s ++ '\x00' :: t) = s := by
  rw [cstr_append h]
  simp [cstr]

theorem append_eq_concat_cases {α : Type*} {u v w : List α} {d : α} (h : u ++ v = w ++ [d]) :
    (∃ t, w = u ++ t ∧ v = t ++ [d]) ∨ (u = w ++ [d] ∧ v = []) := by
  rcases List.eq_nil_or_concat v with rfl | ⟨t, x, rfl⟩
  · exact .inr ⟨by simpa using h, rfl⟩
  · rw [List.concat_eq_append] at h ⊢
    rw [← List.append_assoc] at h
    obtain ⟨hw, hx⟩ := List.append_inj' h rfl
    exact .inl ⟨t, hw.symm, by rw [hx]⟩

theorem eq_nil_of_flatten {reads : List Str} (hpos : ∀ r ∈ reads, r ≠ [])
    (h : reads.flatten = []) : reads = [] :=
  List.eq_nil_iff_forall_not_mem.2 fun r hr => hpos r hr (List.flatten_eq_nil_iff.1 h r hr)

/-- However a stream is cut, the reader stops exactly at the `$` that ends it. -/
theorem recvMul_of_flatten {reads : List Str} {body : Str} (hpos : ∀ r ∈ reads, r ≠ [])
    (hf : reads.flatten = body ++ ['$']) (hd : '$' ∉ body) (hz : '\x00' ∉ body) (buf : Str) :
    recvMul reads buf = (buf ++ (body ++ ['$']), []) := by
  induction reads generalizing body buf with
  | nil => simp at hf
  | cons read reads ih =>
    rw [List.flatten_cons] at hf
    have hrest : ∀ r ∈ reads, r ≠ [] := fun r hr => hpos r (List.mem_cons_of_mem _ hr)
    have hzr : '\x00' ∉ read := by
      intro hr
      have hmem : '\x00' ∈ body ++ ['$'] := hf ▸ List.mem_append_left _ hr
      simp [hz] at hmem
    rw [recvMul, cstr_eq hzr]
    rcases append_eq_concat_cases hf with ⟨t, rfl, hv⟩ | ⟨hread, hv⟩
    · -- the read ends before the marker, so its last byte is not the marker
      have hlast : read.getLast? ≠ some '$' := fun hl =>
        hd (List.mem_append_left _ (List.mem_of_getLast? hl))
      rw [if_neg hlast, ih hrest hv (fun h => hd (List.mem_append_right _ h))
        (fun h => hz (List.mem_append_right _ h))]
      simp only [List.append_assoc]
    · -- the read ends with the marker, so nothing is left
      rw [if_pos (by simp [hread]), eq_nil_of_flatten hrest hv, hread]

theorem mapM_eq_some_map {α β : Type*} {f : α → Option β} {g : α → β} {l : List α}
    (h : ∀ x ∈ l, f x = some (g x)) : l.mapM f = some (l.map g) := by
  induction l with
  | nil => rfl
  | cons x l ih =>
    rw [List.mapM_cons, h x List.mem_cons_self, ih fun y hy => h y (List.mem_cons_of_mem _ hy)]
    rfl

/-- A task as the receiver of its text gets it. -/
def TaskMsg.reread (tm : TaskMsg) : TaskMsg :=
  { tm with datalength := strToLong (numToStr tm.datalength) }

theorem TaskMsg.reread_eq {tm : TaskMsg} (h : IsLong tm.datalength) : tm.reread = tm := by
  rw [TaskMsg.reread, strToLong_numToStr h]

section Batch

variable {peer : Str} {count : Int} {tasks : List TaskMsg}

theorem CleanField.msgtype (hp : CleanField peer) : CleanField (peer ++ " send tasks".toList) :=
  hp.append (by decide)

theorem batchMsg_clean (hp : CleanField peer) (hc : IsInt count)
    (ht : ∀ t ∈ tasks, t.DelimFree) :
    (batchMsg peer count tasks).Clean where
  msgtype := hp.msgtype.isField (by decide)
  extrainfo := by simp [batchMsg]
  count := by
    intro n hn
    cases hn
    exact hc
  tasks := by
    intro s hs
    obtain ⟨t, hmem, rfl⟩ := List.mem_map.1 hs
    have hclean := ht t hmem
    exact ⟨isField_iff.2 ⟨taskmsgToStr_ne_nil t, hclean.not_mem_str (by decide) (by decide)⟩,
      hclean.not_mem_str (by decide) (by decide)⟩

theorem not_mem_batchStr {d : Char} (hp : CleanField peer) (ht : ∀ t ∈ tasks, t.DelimFree)
    (hd : d ∈ ['#', '$', '\x00']) : d ∉ mmToStr (batchMsg peer count tasks) := by
  have hr : d ∈ reserved := by
    simp only [reserved, List.mem_cons, List.not_mem_nil, or_false] at hd ⊢
    tauto
  have hne : d ≠ '&' ∧ d ≠ '!' ∧ d ≠ '@' := by
    simp only [List.mem_cons, List.not_mem_nil, or_false] at hd
    rcases hd with rfl | rfl | rfl <;> decide
  have hword {s : String} (h : CleanField s.toList) : d ∉ s.toList := h.not_mem hr
  refine not_mem_terminate hne.1 fun w hw => ?_
  simp only [List.mem_cons, List.not_mem_nil, or_false] at hw
  rcases hw with rfl | rfl | rfl | rfl
  · exact hp.msgtype.not_mem hr
  · exact hword (by decide)
  · exact (cleanField_numToStr _).not_mem hr
  · split
    · refine not_mem_terminate hne.2.1 fun s hs => ?_
      obtain ⟨t, hmem, rfl⟩ := List.mem_map.1 hs
      exact (ht t hmem).not_mem_str hr hne.2.2
    · exact hword (by decide)

theorem isField_batchStr (hp : CleanField peer) (ht : ∀ t ∈ tasks, t.DelimFree) :
    IsField '#' (mmToStr (batchMsg peer count tasks)) := by
  refine isField_iff.2 ⟨?_, not_mem_batchStr hp ht (by decide)⟩
  simp [mmToStr]

theorem decodePkg_batchStr (hp : CleanField peer) (ht : ∀ t ∈ tasks, t.Clean)
    (hn : tasks.length < 2 ^ 31) :
    decodePkg (mmToStr (batchMsg peer tasks.length tasks)) = some (tasks.map TaskMsg.reread) := by
  have hc : IsInt tasks.length := by
    unfold IsInt
    omega
  have hlen : (tasks.map taskmsgToStr).length = tasks.length := List.length_map _
  rw [decodePkg, strToMm_mmToStr (batchMsg_clean hp hc fun t hmem => (ht t hmem).delimFree),
    Option.bind_some]
  simp only [batchMsg, Option.getD_some, Int.toNat_natCast, hlen, Nat.lt_irrefl, if_false]
  rw [← hlen, List.take_length, List.mapM_map]
  exact mapM_eq_some_map fun t hmem => strToTaskmsg_fields (ht t hmem)

/-- The loop cuts the tasks into packages and ends the stream after the last of them. -/
theorem sendBatchLoop_eq {m : Int} (hm : 1 ≤ m) (fuel : Nat) (hf : tasks.length < fuel)
    (hne : tasks ≠ []) :
    ∃ pkgs : List (List TaskMsg), pkgs ≠ [] ∧ pkgs.flatten = tasks ∧
      (∀ pkg ∈ pkgs, pkg ≠ [] ∧ (pkg.length : Int) ≤ m) ∧
      sendBatchLoop m peer fuel tasks =
        some (terminate ['#', '#'] (pkgs.map fun pkg => mmToStr (batchMsg peer pkg.length pkg)) ++
          ['$']) := by
  induction fuel generalizing tasks with
  | zero => omega
  | succ fuel ih =>
    have hlen : tasks.length ≠ 0 := fun h => hne (List.eq_nil_of_length_eq_zero h)
    rw [sendBatchLoop, if_neg hlen]
    by_cases hlast : (tasks.length : Int) ≤ m
    · refine ⟨[tasks], by simp, by simp, by simpa using ⟨hne, hlast⟩, ?_⟩
      have hfuel : fuel ≠ 0 := by omega
      obtain ⟨k, rfl⟩ := Nat.exists_eq_succ_of_ne_zero hfuel
      simp [hlast, sendBatchLoop, sendMul]
    · have hsz : m.toNat < tasks.length := by omega
      have hdrop : (tasks.drop m.toNat).length < fuel := by
        rw [List.length_drop]
        omega
      have hrest : tasks.drop m.toNat ≠ [] := by
        rw [ne_eq, List.drop_eq_nil_iff]
        omega
      obtain ⟨pkgs, _, hflat, hle, hsend⟩ := ih hdrop hrest
      refine ⟨tasks.take m.toNat :: pkgs, by simp, ?_, ?_, ?_⟩
      · rw [List.flatten_cons, hflat, List.take_append_drop]
      · rw [List.forall_mem_cons, List.length_take]
        exact ⟨⟨List.ne_nil_of_length_pos (by rw [List.length_take]; omega), by omega⟩, hle⟩
      · have hmin : ((min m.toNat tasks.length : Nat) : Int) = m := by omega
        simp [hlast, hsend, hmin, sendMul]

theorem sendBatchLoop_eq_none {m : Int} (hm : m < 1) (fuel : Nat) (hne : tasks ≠ []) :
    sendBatchLoop m peer fuel tasks = none := by
  induction fuel with
  | zero => rfl
  | succ fuel ih =>
    have hlen : tasks.length ≠ 0 := fun h => hne (List.eq_nil_of_length_eq_zero h)
    have hlast : ¬ (tasks.length : Int) ≤ m := by omega
    have hm0 : m.toNat = 0 := by omega
    rw [sendBatchLoop, if_neg hlen]
    simp [hlast, hm0, ih]

/-- The text of a whole batch without the end marker. -/
def batchText (peer : Str) (tasks : List TaskMsg) (pkgs : List (List TaskMsg)) : Str :=
  terminate ['#', '#'] (mmToStr (batchMsg peer tasks.length []) ::
    pkgs.map fun pkg => mmToStr (batchMsg peer pkg.length pkg))

theorem sendBatchTasks_eq {m : Int} (hm : 1 ≤ m) (tasks : List TaskMsg) (peer : Str) :
    ∃ pkgs : List (List TaskMsg), (pkgs = [] ↔ tasks = []) ∧ pkgs.flatten = tasks ∧
      (∀ pkg ∈ pkgs, pkg ≠ [] ∧ (pkg.length : Int) ≤ m) ∧ sendBatchTasks m tasks peer =
        some (batchText peer tasks pkgs ++ ['$']) := by
  by_cases hne : tasks = []
  · refine ⟨[], by simp [hne], by simp [hne], by simp, ?_⟩
    simp [sendBatchTasks, batchText, hne, sendMul]
  · have hlen : tasks.length ≠ 0 := fun h => hne (List.eq_nil_of_length_eq_zero h)
    obtain ⟨pkgs, hpkgs, hflat, hle, hsend⟩ :=
      sendBatchLoop_eq hm (tasks.length + 1) (Nat.lt_succ_self _) hne
    refine ⟨pkgs, by simp [hpkgs, hne], hflat, hle, ?_⟩
    rw [sendBatchTasks, if_neg hlen, hsend]
    simp [sendMul, batchText]

theorem exists_pkgs {m : Int} {stream : Str} (hsend : sendBatchTasks m tasks peer = some stream) :
    ∃ pkgs : List (List TaskMsg), (pkgs = [] ↔ tasks = []) ∧ pkgs.flatten = tasks ∧
      (∀ pkg ∈ pkgs, pkg ≠ [] ∧ (pkg.length : Int) ≤ m) ∧
      stream = batchText peer tasks pkgs ++ ['$'] := by
  by_cases hempty : tasks = []
  · subst hempty
    have hstream : stream = batchText peer [] [] ++ ['$'] := by
      simpa [sendBatchTasks, batchText, sendMul] using hsend.symm
    exact ⟨[], by simp, List.flatten_nil, by simp, hstream⟩
  · have hm : 1 ≤ m := by
      by_contra hm
      rw [sendBatchTasks, if_neg (by simpa using hempty),
        sendBatchLoop_eq_none (by omega) _ hempty] at hsend
      cases hsend
    obtain ⟨pkgs, hnil, hflat, hle, hsend'⟩ := sendBatchTasks_eq hm tasks peer
    exact ⟨pkgs, hnil, hflat, hle, Option.some.inj (hsend.symm.trans hsend')⟩

variable {pkgs : List (List TaskMsg)}

theorem batchText_fields (hp : CleanField peer) (ht : ∀ pkg ∈ pkgs, ∀ t ∈ pkg, t.DelimFree) :
    ∀ w ∈ mmToStr (batchMsg peer tasks.length []) ::
      pkgs.map (fun pkg => mmToStr (batchMsg peer pkg.length pkg)),
      IsField '#' w ∧ '$' ∉ w ∧ '\x00' ∉ w := by
  have hbatch {n : Int} {l : List TaskMsg} (hl : ∀ t ∈ l, t.DelimFree) :
      IsField '#' (mmToStr (batchMsg peer n l)) ∧ '$' ∉ mmToStr (batchMsg peer n l) ∧
        '\x00' ∉ mmToStr (batchMsg peer n l) :=
    ⟨isField_batchStr hp hl, not_mem_batchStr hp hl (by decide),
      not_mem_batchStr hp hl (by decide)⟩
  intro w hw
  rcases List.mem_cons.1 hw with rfl | hw
  · exact hbatch (by simp)
  · obtain ⟨pkg, hpkg, rfl⟩ := List.mem_map.1 hw
    exact hbatch (ht pkg hpkg)

theorem delimFree_of_flatten (ht : ∀ t ∈ tasks, t.DelimFree) (hflat : pkgs.flatten = tasks) :
    ∀ pkg ∈ pkgs, ∀ t ∈ pkg, t.DelimFree :=
  fun _ hpkg t htm => ht t (hflat ▸ List.mem_flatten_of_mem hpkg htm)

theorem not_mem_batchText (hp : CleanField peer) (ht : ∀ t ∈ tasks, t.DelimFree)
    (hflat : pkgs.flatten = tasks) :
    '$' ∉ batchText peer tasks pkgs ∧ '\x00' ∉ batchText peer tasks pkgs := by
  have hf := @batchText_fields peer tasks pkgs hp (delimFree_of_flatten ht hflat)
  exact ⟨not_mem_terminate (by decide) fun w hw => (hf w hw).2.1,
    not_mem_terminate (by decide) fun w hw => (hf w hw).2.2⟩

theorem strToMm_header (hp : CleanField peer) (n : Int) :
    strToMm (mmToStr (batchMsg peer n [])) = some (batchMsg peer (toInt32 n) []) := by
  have hi : IsInt (toInt32 n) := isInt_toInt32 n
  have hstr : mmToStr (batchMsg peer n []) = mmToStr (batchMsg peer (toInt32 n) []) := by
    simp [mmToStr, batchMsg, toInt32_eq hi]
  rw [hstr, strToMm_mmToStr (batchMsg_clean hp hi (by simp))]

theorem tokenize_batchText (hp : CleanField peer) (ht : ∀ t ∈ tasks, t.DelimFree)
    (hflat : pkgs.flatten = tasks) :
    tokenize (batchText peer tasks pkgs) ['#', '#'] = mmToStr (batchMsg peer tasks.length []) ::
      pkgs.map fun pkg => mmToStr (batchMsg peer pkg.length pkg) :=
  tokenize_terminate fun w hw => (batchText_fields hp (delimFree_of_flatten ht hflat) w hw).1

theorem decodeBatch_header (hp : CleanField peer) :
    decodeBatch (batchText peer [] [] ++ ['$']) = some none := by
  have htok := tokenize_batchText hp (by simp)
    (List.flatten_nil : ([] : List (List TaskMsg)).flatten = [])
  rw [decodeBatch, List.dropLast_concat, htok]
  rfl

theorem decodeBatch_pkgs (hp : CleanField peer) (ht : ∀ t ∈ tasks, t.DelimFree)
    (hflat : pkgs.flatten = tasks) (hne : pkgs ≠ []) :
    decodeBatch (batchText peer tasks pkgs ++ ['$']) =
      (pkgs.mapM fun pkg => decodePkg (mmToStr (batchMsg peer pkg.length pkg))).map fun pkgs =>
        some { numTask := toInt32 tasks.length, pkgs } := by
  rw [decodeBatch, List.dropLast_concat, tokenize_batchText hp ht hflat]
  obtain ⟨pkg, rest, rfl⟩ := List.exists_cons_of_ne_nil hne
  change ((strToMm _).bind fun mmNumTask => (((pkg :: rest).map fun l =>
    mmToStr (batchMsg peer l.length l)).mapM decodePkg).map fun pkgs =>
      some (Batch.mk (toInt32 (mmNumTask.count.getD 0)) pkgs)) = _
  rw [strToMm_header hp, Option.bind_some, List.mapM_map]
  have hcount (n : Int) : (batchMsg peer n []).count.getD 0 = n := rfl
  rw [hcount, toInt32_eq (isInt_toInt32 _), Function.comp_def]

/-- A received batch decodes to the tasks that were sent. -/
theorem decodeBatch_batchText (hp : CleanField peer) (ht : ∀ t ∈ tasks, t.Clean)
    (hn : ∀ l ∈ pkgs, l.length < 2 ^ 31) (hflat : pkgs.flatten = tasks) (hne : pkgs ≠ []) :
    decodeBatch (batchText peer tasks pkgs ++ ['$']) =
      some (some
        { numTask := toInt32 tasks.length, pkgs := pkgs.map (·.map TaskMsg.reread) }) := by
  have hdec : ∀ l ∈ pkgs,
      decodePkg (mmToStr (batchMsg peer l.length l)) = some (l.map TaskMsg.reread) :=
    fun l hl => decodePkg_batchStr hp
      (fun t htm => ht t (hflat ▸ List.mem_flatten_of_mem hl htm)) (hn l hl)
  rw [decodeBatch_pkgs hp (fun t htm => (ht t htm).delimFree) hflat hne, mapM_eq_some_map hdec,
    Option.map_some]

theorem length_lt_of_flatten {n : Nat} (hflat : pkgs.flatten = tasks) (hn : tasks.length < n) :
    ∀ l ∈ pkgs, l.length < n := by
  intro l hl
  have hle : l.length ≤ tasks.length := by
    rw [← hflat]
    exact (List.sublist_flatten_of_mem hl).length_le
  omega

theorem length_lt_of_le {m : Int} (hflat : pkgs.flatten = tasks)
    (hle : ∀ pkg ∈ pkgs, pkg ≠ [] ∧ (pkg.length : Int) ≤ m)
    (hint : min (tasks.length : Int) m < 2 ^ 31) : ∀ l ∈ pkgs, l.length < 2 ^ 31 := by
  intro l hl
  have hpkg := (hle l hl).2
  have hall := length_lt_of_flatten hflat (Nat.lt_succ_self _) l hl
  omega

end Batch

theorem map_reread {tasks : List TaskMsg} {pkgs : List (List TaskMsg)}
    (hflat : pkgs.flatten = tasks) (h : ∀ t ∈ tasks, IsLong t.datalength) :
    pkgs.map (·.map TaskMsg.reread) = pkgs := by
  have hpkg : ∀ pkg ∈ pkgs, pkg.map TaskMsg.reread = pkg := by
    intro pkg hpkg
    have hid : ∀ t ∈ pkg, t.reread = id t := fun t ht =>
      TaskMsg.reread_eq (h t (hflat ▸ List.mem_flatten_of_mem hpkg ht))
    rw [List.map_congr_left hid, List.map_id]
  calc pkgs.map (·.map TaskMsg.reread) = pkgs.map id := List.map_congr_left hpkg
    _ = pkgs := List.map_id pkgs

/-- A batch sent between schedulers arrives as it was, however the stream is cut into reads. -/
theorem recvTaskFromScheduler_sendBatchTasks (tasks : List TaskMsg) (maxTaskPerPkg : Int)
    (hm : 1 ≤ maxTaskPerPkg) (hlen : tasks.length < 2 ^ 31) (hclean : ∀ t ∈ tasks, t.Clean)
    (hlong : ∀ t ∈ tasks, IsLong t.datalength) :
    ∃ stream, sendBatchTasks maxTaskPerPkg tasks "scheduler".toList = some stream ∧
      ∀ reads, Cut stream reads → ∀ wsQueue,
        recvTaskFromScheduler reads wsQueue = some (!tasks.isEmpty, wsQueue ++ tasks) := by
  have hp : CleanField "scheduler".toList := by decide
  obtain ⟨pkgs, hnil, hflat, _, hsend⟩ := sendBatchTasks_eq hm tasks "scheduler".toList
  refine ⟨_, hsend, fun reads hcut wsQueue => ?_⟩
  obtain ⟨hd, hz⟩ := not_mem_batchText hp (fun t ht => (hclean t ht).delimFree) hflat
  have hrecv := recvMul_of_flatten hcut.pos hcut.flatten hd hz []
  rw [recvTaskFromScheduler, hrecv, List.nil_append]
  by_cases hempty : tasks = []
  · obtain rfl := hnil.2 hempty
    subst hempty
    rw [decodeBatch_header hp]
    simp
  · rw [decodeBatch_batchText hp hclean (length_lt_of_flatten hflat hlen) hflat
      fun h => hempty (hnil.1 h), map_reread hflat hlong]
    have hfold : pkgs.foldl (· ++ ·) wsQueue = wsQueue ++ (pkgs.map id).flatten :=
      List.foldl_append_eq_append
    simp [hempty, hfold, hflat]

theorem recvTaskFromScheduler_sendBatchTasks_two :
    ∃ stream, sendBatchTasks 1
        [⟨"00".toList, "u".toList, "d".toList, "sleep 0".toList, 0⟩,
          ⟨"01".toList, "u".toList, "d".toList, "sleep 0".toList, -7⟩] "scheduler".toList =
        some stream ∧
      ∀ reads, Cut stream reads → ∀ wsQueue,
        recvTaskFromScheduler reads wsQueue = some (true, wsQueue ++
          [⟨"00".toList, "u".toList, "d".toList, "sleep 0".toList, 0⟩,
            ⟨"01".toList, "u".toList, "d".toList, "sleep 0".toList, -7⟩]) :=
  recvTaskFromScheduler_sendBatchTasks _ 1 (by decide) (by decide) (by decide) (by decide)

end MatrixZht
