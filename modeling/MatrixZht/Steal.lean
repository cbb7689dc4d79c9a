import Mathlib.Data.List.Perm.Subperm
import MatrixZht.Transfer

namespace MatrixZht
open Lib

/-- The text of a package sent to a scheduler. -/
def pkgText (pkg : List TaskMsg) : Str := mmToStr (batchMsg "scheduler".toList pkg.length pkg)

/-- The header of the stream. -/
def headText (tasks : List TaskMsg) : Str := mmToStr (batchMsg "scheduler".toList tasks.length [])

/-- The part of a package before its tasks. -/
def pkgHead (count : Int) : Str :=
  terminate ['&', '&']
    ["scheduler send tasks".toList, "noextrainfo".toList, numToStr (toInt32 count)]

/-- The tasks of a package with the positions where their texts end, the first starting at `pos`. -/
def taskEnds : Nat → List TaskMsg → List (Nat × TaskMsg)
  | _, [] => []
  | pos, tm :: tasks =>
    (pos + (taskmsgToStr tm).length, tm) :: taskEnds (pos + (taskmsgToStr tm).length + 2) tasks

def pkgEnds : Nat → List (List TaskMsg) → List (Nat × TaskMsg)
  | _, [] => []
  | pos, pkg :: pkgs =>
    taskEnds (pos + (pkgHead pkg.length).length) pkg ++
      pkgEnds (pos + (pkgText pkg).length + 2) pkgs

/-- The length of the header and of the packages `pkgs` in the stream of `tasks`. -/
def streamPos (tasks : List TaskMsg) (pkgs : List (List TaskMsg)) : Nat :=
  (batchText "scheduler".toList tasks pkgs).length

/-- The tasks whose texts lie wholly in the first `n` bytes of the stream. -/
def contained (tasks : List TaskMsg) (pkgs : List (List TaskMsg)) (n : Nat) : List TaskMsg :=
  ((pkgEnds (streamPos tasks []) pkgs).filter (·.1 ≤ n)).map (·.2)

/-- The receiver returns, and has queued tasks that have arrived, each at most once. -/
def Harmless (r : Option (Bool × List TaskMsg)) (wsQueue arrived : List TaskMsg) : Prop :=
  ∃ ret stolen, r = some (ret, wsQueue ++ stolen) ∧ stolen.Subperm arrived

/-- The first `n` bytes of the stream end in the header, but not in its first byte, or after the
last task of a package, at most one byte into the next one. -/
def CutBetween (tasks : List TaskMsg) (pkgs : List (List TaskMsg)) (n : Nat) : Prop :=
  2 ≤ n ∧ n ≤ streamPos tasks [] + 1 ∨
    ∃ done rest, pkgs = done ++ rest ∧ done ≠ [] ∧ streamPos tasks done ≤ n + 6 ∧
      n ≤ streamPos tasks done + 1 ∧ ∀ tm ∈ done.flatten, tm.Clean

theorem batchText_eq (tasks : List TaskMsg) (pkgs : List (List TaskMsg)) :
    batchText "scheduler".toList tasks pkgs =
      terminate ['#', '#'] (headText tasks :: pkgs.map pkgText) := rfl

section Position

variable {tasks : List TaskMsg} {pkg : List TaskMsg} {pkgs done rest : List (List TaskMsg)}
  {pos n : Nat}

theorem pkgText_eq (hne : pkg ≠ []) : pkgText pkg =
    pkgHead pkg.length ++ (terminate ['!', '!'] (pkg.map taskmsgToStr) ++ ['&', '&']) := by
  have hpeer : "scheduler".toList ++ " send tasks".toList = "scheduler send tasks".toList := by
    decide
  rw [pkgText, batchMsg, hpeer, mmToStr_tasks (by simpa using hne)]
  rfl

theorem streamPos_append (tasks : List TaskMsg) (done rest : List (List TaskMsg)) :
    streamPos tasks (done ++ rest) =
      streamPos tasks done + (terminate ['#', '#'] (rest.map pkgText)).length := by
  have hcons (l : List (List TaskMsg)) : batchText "scheduler".toList tasks l =
      batchText "scheduler".toList tasks [] ++ terminate ['#', '#'] (l.map pkgText) := by
    rw [batchText_eq, batchText_eq, List.map_nil, ← terminate_append]
    rfl
  rw [streamPos, streamPos, hcons, hcons done, List.map_append, terminate_append]
  simp only [List.length_append, Nat.add_assoc]

theorem map_taskEnds (pos : Nat) (tasks : List TaskMsg) :
    (taskEnds pos tasks).map (·.2) = tasks := by
  induction tasks generalizing pos with
  | nil => rfl
  | cons tm tasks ih => rw [taskEnds, List.map_cons, ih]

theorem map_pkgEnds (pos : Nat) (pkgs : List (List TaskMsg)) :
    (pkgEnds pos pkgs).map (·.2) = pkgs.flatten := by
  induction pkgs generalizing pos with
  | nil => rfl
  | cons pkg pkgs ih => rw [pkgEnds, List.map_append, map_taskEnds, ih, List.flatten_cons]

theorem pkgEnds_append (pos : Nat) (done rest : List (List TaskMsg)) :
    pkgEnds pos (done ++ rest) = pkgEnds pos done ++
      pkgEnds (pos + (terminate ['#', '#'] (done.map pkgText)).length) rest := by
  induction done generalizing pos with
  | nil => rfl
  | cons pkg done ih =>
    rw [List.cons_append, pkgEnds, ih, pkgEnds, List.append_assoc]
    have hsep : ['#', '#'].length = 2 := rfl
    simp only [List.map_cons, terminate_cons, List.length_append, hsep, Nat.add_assoc]

theorem mem_taskEnds {e : Nat × TaskMsg} (h : e ∈ taskEnds pos tasks) :
    pos < e.1 ∧ e.1 + 2 ≤ pos + (terminate ['!', '!'] (tasks.map taskmsgToStr)).length := by
  induction tasks generalizing pos with
  | nil => cases h
  | cons tm tasks ih =>
    have hpos : 0 < (taskmsgToStr tm).length := List.length_pos_iff.2 (taskmsgToStr_ne_nil tm)
    simp only [List.map_cons, terminate_cons, List.length_append, List.length_cons,
      List.length_nil]
    rcases List.mem_cons.1 h with rfl | h
    · dsimp only
      omega
    · have hrest := ih h
      omega

theorem exists_mem_taskEnds (hne : tasks ≠ []) : ∃ e ∈ taskEnds pos tasks,
    e.1 + 2 = pos + (terminate ['!', '!'] (tasks.map taskmsgToStr)).length := by
  induction tasks generalizing pos with
  | nil => exact absurd rfl hne
  | cons tm tasks ih =>
    simp only [List.map_cons, terminate_cons, List.length_append, List.length_cons,
      List.length_nil]
    by_cases hnil : tasks = []
    · subst hnil
      refine ⟨_, List.mem_cons_self, ?_⟩
      simp only [List.map_nil, terminate_nil, List.length_nil]
      omega
    · obtain ⟨e, he, hend⟩ := @ih (pos + (taskmsgToStr tm).length + 2) hnil
      exact ⟨e, List.mem_cons_of_mem _ he, by omega⟩

theorem length_pkgText (hne : pkg ≠ []) : (pkgText pkg).length =
    (pkgHead pkg.length).length + (terminate ['!', '!'] (pkg.map taskmsgToStr)).length + 2 := by
  have hsep : ['&', '&'].length = 2 := rfl
  rw [pkgText_eq hne]
  simp only [List.length_append, hsep, Nat.add_assoc]

theorem six_le_length_pkgText (pkg : List TaskMsg) : 6 ≤ (pkgText pkg).length := by
  have hmsg : ("scheduler".toList ++ " send tasks".toList).length = 20 := by decide
  rw [pkgText, mmToStr, terminate_cons, batchMsg, List.length_append, hmsg]
  omega

theorem mem_pkgEnds {e : Nat × TaskMsg} (h : e ∈ pkgEnds pos pkgs) :
    pos + 1 < e.1 ∧ e.1 + 6 ≤ pos + (terminate ['#', '#'] (pkgs.map pkgText)).length := by
  have hsep : ['#', '#'].length = 2 := rfl
  induction pkgs generalizing pos with
  | nil => cases h
  | cons pkg pkgs ih =>
    simp only [List.map_cons, terminate_cons, List.length_append, hsep]
    rcases List.mem_append.1 h with h | h
    · have hne : pkg ≠ [] := by
        rintro rfl
        cases h
      have hhead : 1 ≤ (pkgHead pkg.length).length :=
        List.length_pos_iff.2 (by simp [pkgHead])
      have hend := mem_taskEnds h
      rw [length_pkgText hne]
      omega
    · have hrest := ih h
      omega

theorem exists_mem_pkgEnds (hne : pkg ≠ []) : ∃ e ∈ pkgEnds pos (done ++ [pkg]),
    e.1 + 6 = pos + (terminate ['#', '#'] ((done ++ [pkg]).map pkgText)).length := by
  have hsep : ['#', '#'].length = 2 := rfl
  rw [pkgEnds_append]
  obtain ⟨e, he, hend⟩ := @exists_mem_taskEnds pkg (pos +
    (terminate ['#', '#'] (done.map pkgText)).length + (pkgHead pkg.length).length) hne
  refine ⟨e, List.mem_append_right _ ?_, ?_⟩
  · rw [pkgEnds]
    exact List.mem_append_left _ he
  · rw [List.map_append, terminate_append, List.length_append, List.map_singleton, terminate_cons,
      terminate_nil, List.append_nil, List.length_append, hsep, length_pkgText hne]
    omega

theorem suffix_of_mem_taskEnds {u : Str} (more : Str) {e : Nat × TaskMsg}
    (h : e ∈ taskEnds u.length tasks) : taskmsgToStr e.2 <:+
      (u ++ (terminate ['!', '!'] (tasks.map taskmsgToStr) ++ more)).take e.1 := by
  induction tasks generalizing u with
  | nil => cases h
  | cons tm tasks ih =>
    have hassoc : u ++ (terminate ['!', '!'] ((tm :: tasks).map taskmsgToStr) ++ more) =
        u ++ (taskmsgToStr tm ++ ['!', '!']) ++
          (terminate ['!', '!'] (tasks.map taskmsgToStr) ++ more) := by simp
    rcases List.mem_cons.1 h with rfl | h
    · rw [hassoc, ← List.append_assoc u, ← List.length_append, List.append_assoc (u ++ _),
        List.take_left]
      exact List.suffix_append _ _
    · rw [hassoc]
      apply ih
      simpa [Nat.add_assoc] using h

theorem suffix_of_mem_pkgEnds {u : Str} {e : Nat × TaskMsg} (h : e ∈ pkgEnds u.length pkgs) :
    taskmsgToStr e.2 <:+ (u ++ terminate ['#', '#'] (pkgs.map pkgText)).take e.1 := by
  induction pkgs generalizing u with
  | nil => cases h
  | cons pkg pkgs ih =>
    rcases List.mem_append.1 h with h | h
    · have hne : pkg ≠ [] := by
        rintro rfl
        cases h
      rw [← List.length_append] at h
      have hsuffix := suffix_of_mem_taskEnds
        (['&', '&'] ++ (['#', '#'] ++ terminate ['#', '#'] (pkgs.map pkgText))) h
      simpa [pkgText_eq hne] using hsuffix
    · have hassoc : u ++ terminate ['#', '#'] ((pkg :: pkgs).map pkgText) =
          u ++ (pkgText pkg ++ ['#', '#']) ++ terminate ['#', '#'] (pkgs.map pkgText) := by simp
      rw [hassoc]
      apply ih
      simpa [Nat.add_assoc] using h

/-- The text of a task that is contained in the first bytes of a stream is a part of them. -/
theorem infix_of_mem_contained {tm : TaskMsg} (h : tm ∈ contained tasks pkgs n) :
    taskmsgToStr tm <:+: (batchText "scheduler".toList tasks pkgs).take n := by
  obtain ⟨e, he, rfl⟩ := List.mem_map.1 h
  obtain ⟨he, hn⟩ := List.mem_filter.1 he
  have hsplit : batchText "scheduler".toList tasks pkgs =
      batchText "scheduler".toList tasks [] ++ terminate ['#', '#'] (pkgs.map pkgText) := by
    rw [batchText_eq, batchText_eq, ← terminate_append]
    rfl
  have hsuffix := suffix_of_mem_pkgEnds he
  rw [← hsplit] at hsuffix
  have hpart := List.take_prefix_take_left (l := batchText "scheduler".toList tasks pkgs)
    (of_decide_eq_true hn)
  exact hsuffix.isInfix.trans hpart.isInfix

theorem contained_append (hn : n ≤ streamPos tasks done + 1) : contained tasks (done ++ rest) n =
    ((pkgEnds (streamPos tasks []) done).filter (·.1 ≤ n)).map (·.2) := by
  have hpos := streamPos_append tasks [] done
  rw [List.nil_append] at hpos
  have hrest : (pkgEnds (streamPos tasks done) rest).filter (·.1 ≤ n) = [] := by
    rw [List.filter_eq_nil_iff]
    intro e he
    have hend := (mem_pkgEnds he).1
    simp only [decide_eq_true_eq]
    omega
  rw [contained, pkgEnds_append, ← hpos, List.filter_append, hrest, List.append_nil]

theorem contained_whole (hlo : streamPos tasks done ≤ n + 6) (hn : n ≤ streamPos tasks done + 1) :
    contained tasks (done ++ rest) n = done.flatten := by
  have hpos := streamPos_append tasks [] done
  rw [List.nil_append] at hpos
  have hall : (pkgEnds (streamPos tasks []) done).filter (·.1 ≤ n) =
      pkgEnds (streamPos tasks []) done := by
    rw [List.filter_eq_self]
    intro e he
    have hend := (mem_pkgEnds he).2
    simp only [decide_eq_true_eq]
    omega
  rw [contained_append hn, hall, map_pkgEnds]

theorem length_contained_lt (hne : pkg ≠ []) (hn : n + 6 < streamPos tasks (done ++ [pkg])) :
    (contained tasks (done ++ pkg :: rest) n).length < (done ++ [pkg]).flatten.length := by
  have hpos := streamPos_append tasks [] (done ++ [pkg])
  rw [List.nil_append] at hpos
  have hsplit : done ++ pkg :: rest = (done ++ [pkg]) ++ rest := by simp
  obtain ⟨e, he, hend⟩ := @exists_mem_pkgEnds pkg done (streamPos tasks []) hne
  rw [hsplit, contained_append (by omega), List.length_map, ← map_pkgEnds (streamPos tasks []),
    List.length_map, List.length_filter_lt_length_iff_exists]
  refine ⟨e, he, ?_⟩
  simp only [decide_eq_true_eq]
  omega

theorem streamPos_lt (tasks : List TaskMsg) (done rest : List (List TaskMsg))
    (pkg : List TaskMsg) : streamPos tasks done + 7 < streamPos tasks (done ++ pkg :: rest) := by
  have hsep : ['#', '#'].length = 2 := rfl
  have hlen := six_le_length_pkgText pkg
  rw [streamPos_append]
  simp only [List.map_cons, terminate_cons, List.length_append, hsep]
  omega

theorem lt_streamPos (tasks : List TaskMsg) (done : List (List TaskMsg)) :
    7 < streamPos tasks done := by
  have hmsg : ("scheduler".toList ++ " send tasks".toList).length = 20 := by decide
  rw [streamPos, batchText, terminate_cons, mmToStr, terminate_cons, batchMsg, List.append_assoc,
    List.length_append, hmsg]
  omega

theorem eq_of_streamPos {done' rest' : List (List TaskMsg)} (h : done ++ rest = done' ++ rest')
    (hlo : streamPos tasks done ≤ n + 6) (hn : n ≤ streamPos tasks done + 1)
    (hlo' : streamPos tasks done' ≤ n + 6) (hn' : n ≤ streamPos tasks done' + 1) :
    done = done' := by
  rcases List.append_eq_append_iff.1 h with ⟨more, rfl, _⟩ | ⟨more, rfl, _⟩
  · cases more with
    | nil => rw [List.append_nil]
    | cons pkg more =>
      have hlt := streamPos_lt tasks done more pkg
      omega
  · cases more with
    | nil => rw [List.append_nil]
    | cons pkg more =>
      have hlt := streamPos_lt tasks done' more pkg
      omega

theorem cutBetween_iff (hne : done ≠ []) (hlo : streamPos tasks done ≤ n + 6)
    (hn : n ≤ streamPos tasks done + 1) :
    CutBetween tasks (done ++ rest) n ↔ ∀ tm ∈ done.flatten, tm.Clean := by
  constructor
  · rintro (⟨_, hhead⟩ | ⟨done', rest', heq, _, hlo', hn', hclean⟩)
    · obtain ⟨pkg, more, rfl⟩ := List.exists_cons_of_ne_nil hne
      have hlt := streamPos_lt tasks [] more pkg
      rw [List.nil_append] at hlt
      omega
    · rw [eq_of_streamPos heq hlo hn hlo' hn']
      exact hclean
  · exact fun hclean => .inr ⟨done, rest, rfl, hne, hlo, hn, hclean⟩

theorem not_cutBetween (hlo : streamPos tasks done + 1 < n)
    (hn : n + 6 < streamPos tasks (done ++ [pkg])) :
    ¬ CutBetween tasks (done ++ pkg :: rest) n := by
  rintro (⟨_, hhead⟩ | ⟨done', rest', heq, _, hlo', hn', _⟩)
  · have hpos := streamPos_append tasks [] done
    rw [List.nil_append] at hpos
    omega
  · rcases List.append_eq_append_iff.1 heq with ⟨more, rfl, hmore⟩ | ⟨more, rfl, _⟩
    · cases more with
      | nil =>
        rw [List.append_nil] at hn'
        omega
      | cons pkg' more =>
        obtain ⟨rfl, _⟩ := List.cons.inj hmore
        have hpos := streamPos_append tasks (done ++ [pkg]) more
        rw [List.append_assoc, List.singleton_append] at hpos
        omega
    · have hpos := streamPos_append tasks done' more
      omega

end Position

/-- A task as the receiver of its text gets it, whether its texts are empty or not. -/
def TaskMsg.resent (tm : TaskMsg) : TaskMsg := (strToTaskmsg (taskmsgToStr tm)).getD tm

section Decode

variable {tm : TaskMsg} {tasks pkg : List TaskMsg} {str : Str}

theorem strToTaskmsg_resent (h : tm.DelimFree) :
    strToTaskmsg (taskmsgToStr tm) = some tm.resent := by
  have hclean : ∀ w ∈ [tm.taskid, tm.user, tm.dir, tm.cmd, numToStr tm.datalength],
      ∀ c ∈ w, (['@', '@'].contains c) = false := by
    intro w hw c hc
    have hat : c ≠ '@' := by
      rintro rfl
      have hsplit : w ∈ [tm.taskid, tm.user, tm.dir, tm.cmd] ++ [numToStr tm.datalength] := hw
      rcases List.mem_append.1 hsplit with hw | hw
      · exact h w hw '@' hc (by decide)
      · rw [List.mem_singleton.1 hw] at hc
        exact not_mem_numToStr _ (by decide) (by decide) hc
    simp [hat]
  have htok : numToStr tm.datalength ∈ tokenize (taskmsgToStr tm) ['@', '@'] := by
    rw [tokenize_eq_tokens, taskmsgToStr, tokens_terminate_filter hclean (by simp) (by simp)]
    simp
  obtain ⟨taskid, vecStr, hcons⟩ := List.exists_cons_of_ne_nil (List.ne_nil_of_mem htok)
  rw [TaskMsg.resent, strToTaskmsg, hcons]
  rfl

theorem resent_eq (h : tm.Clean) (hl : IsLong tm.datalength) : tm.resent = tm := by
  rw [TaskMsg.resent, strToTaskmsg_taskmsgToStr h hl, Option.getD_some]

theorem ne_nil_of_strToTaskmsg (h : strToTaskmsg str = some tm) :
    ∀ w ∈ [tm.taskid, tm.user, tm.dir, tm.cmd], w ≠ [] := by
  refine forall_of_strToTaskmsg h (fun w hw => ?_) (by decide)
  rw [tokenize_eq_tokens] at hw
  exact (isWord_of_mem_tokens hw).1

theorem TaskMsg.DelimFree.clean (h : tm.DelimFree)
    (hne : ∀ w ∈ [tm.taskid, tm.user, tm.dir, tm.cmd], w ≠ []) : tm.Clean := by
  simp only [DelimFree, List.forall_mem_cons, List.not_mem_nil, false_implies, implies_true,
    and_true] at h hne
  exact ⟨⟨hne.1, h.1⟩, ⟨hne.2.1, h.2.1⟩, ⟨hne.2.2.1, h.2.2.1⟩, ⟨hne.2.2.2, h.2.2.2⟩⟩

theorem subperm_map_resent_iff (hfree : ∀ t ∈ tasks, t.DelimFree)
    (hlong : ∀ t ∈ tasks, IsLong t.datalength) :
    (tasks.map TaskMsg.resent).Subperm tasks ↔ ∀ t ∈ tasks, t.Clean := by
  constructor
  · intro h t ht
    have hperm := h.perm_of_length_le (by rw [List.length_map])
    obtain ⟨t', ht', rfl⟩ := List.mem_map.1 (hperm.mem_iff.2 ht)
    exact (hfree _ ht).clean (ne_nil_of_strToTaskmsg (strToTaskmsg_resent (hfree t' ht')))
  · intro h
    have hmap : tasks.map TaskMsg.resent = tasks := by
      rw [List.map_congr_left fun t ht => resent_eq (h t ht) (hlong t ht)]
      exact List.map_id tasks
    rw [hmap]

/-- The text of a task without its last byte. -/
def taskCore (tm : TaskMsg) : Str :=
  terminate ['@', '@'] [tm.taskid, tm.user, tm.dir, tm.cmd] ++ (numToStr tm.datalength ++ ['@'])

theorem taskmsgToStr_core (tm : TaskMsg) : taskmsgToStr tm = taskCore tm ++ ['@'] := by
  simp [taskmsgToStr, taskCore]

theorem pkgText_concat (init : List TaskMsg) (last : TaskMsg) : pkgText (init ++ [last]) =
    pkgHead (init ++ [last]).length ++
      (terminate ['!', '!'] (init.map taskmsgToStr) ++ taskCore last) ++
        (['@'] ++ (['!', '!'] ++ ['&', '&'])) := by
  rw [pkgText_eq (by simp), List.map_append, terminate_append, List.map_singleton, terminate_cons,
    terminate_nil, taskmsgToStr_core]
  simp only [List.append_assoc, List.append_nil]

theorem strToTaskmsg_taskCore (tm : TaskMsg) (i : Nat) :
    strToTaskmsg (taskCore tm ++ (['@'] : Str).take i) = strToTaskmsg (taskmsgToStr tm) := by
  have htok {z : Str} (hz : ∀ c ∈ z, ['@', '@'].contains c = true) :
      tokenize (taskCore tm ++ z) ['@', '@'] = tokenize (taskCore tm) ['@', '@'] := by
    rw [tokenize_eq_tokens, tokens_append_delims hz, tokenize_eq_tokens]
  have hcut : ∀ c ∈ (['@'] : Str).take i, ['@', '@'].contains c = true := fun c hc => by
    have hat := List.mem_of_mem_take hc
    simpa using hat
  rw [strToTaskmsg, strToTaskmsg, htok hcut, taskmsgToStr_core, htok (by simp)]

theorem pkgText_take {init : List TaskMsg} {last : TaskMsg} {k : Nat}
    (hk : (pkgText (init ++ [last])).length ≤ k + 5) :
    ∃ i j l, (pkgText (init ++ [last])).take k = pkgHead (init ++ [last]).length ++
      ((terminate ['!', '!'] (init.map taskmsgToStr) ++ ((taskCore last ++ (['@'] : Str).take i) ++
        (['!', '!'] : Str).take j)) ++ (['&', '&'] : Str).take l) := by
  have hlen := congrArg List.length (pkgText_concat init last)
  have hsep : (['@'] ++ (['!', '!'] ++ ['&', '&'])).length = 5 := rfl
  rw [List.length_append] at hlen
  obtain ⟨i, j, l, htake⟩ := @exists_take_append _ (pkgHead (init ++ [last]).length ++
    (terminate ['!', '!'] (init.map taskmsgToStr) ++ taskCore last)) ['@'] ['!', '!'] ['&', '&'] k
    (by omega)
  refine ⟨i, j, l, ?_⟩
  rw [pkgText_concat, htake]
  simp only [List.append_assoc]

theorem pkgHead_words (count : Int) : ∀ w ∈
    ["scheduler send tasks".toList, "noextrainfo".toList, numToStr (toInt32 count)],
    IsField '&' w := by
  simp only [List.forall_mem_cons, List.not_mem_nil, false_implies, implies_true, and_true]
  exact ⟨isField_word (by decide), isField_word (by decide),
    isField_numToStr _ (by decide) (by decide)⟩

theorem decodePkg_cut (hne : pkg ≠ []) (hfree : ∀ t ∈ pkg, t.DelimFree)
    (hn : pkg.length < 2 ^ 31) {k : Nat} (hk : (pkgText pkg).length ≤ k + 5) :
    decodePkg ((pkgText pkg).take k) = some (pkg.map TaskMsg.resent) := by
  obtain ⟨init, last, rfl⟩ : ∃ init last, pkg = init ++ [last] :=
    ⟨_, _, (List.dropLast_append_getLast hne).symm⟩
  obtain ⟨i, j, l, htake⟩ := pkgText_take hk
  set task := taskCore last ++ (['@'] : Str).take i with htask
  have hint : IsInt (init ++ [last]).length := by
    unfold IsInt
    omega
  have hfield {t : Str} {tm : TaskMsg} (htm : tm ∈ init ++ [last]) (ht : t <+: taskmsgToStr tm)
      (hnil : t ≠ []) : IsField '!' t ∧ '&' ∉ t :=
    ⟨isField_iff.2 ⟨hnil, fun hc => (hfree tm htm).not_mem_str (by decide) (by decide)
      (ht.subset hc)⟩, fun hc => (hfree tm htm).not_mem_str (by decide) (by decide) (ht.subset hc)⟩
  have hinit : ∀ t ∈ init.map taskmsgToStr, IsField '!' t ∧ '&' ∉ t := by
    intro t ht
    obtain ⟨tm, htm, rfl⟩ := List.mem_map.1 ht
    exact hfield (List.mem_append_left _ htm) (List.prefix_refl _) (taskmsgToStr_ne_nil tm)
  have hat : '@' ∈ task := by simp [htask, taskCore]
  have hpart : task <+: taskmsgToStr last := by
    rw [taskmsgToStr_core, htask, List.prefix_append_right_inj]
    exact List.take_prefix _ _
  have hex : ∀ c ∈ (['!', '!'] : Str).take j, c = '!' := fun c hc => by
    simpa using List.mem_of_mem_take hc
  have hamp : ∀ c ∈ (['&', '&'] : Str).take l, c = '&' := fun c hc => by
    simpa using List.mem_of_mem_take hc
  have hmm := strToMm_tasks_cut (pkgHead_words (init ++ [last]).length) hinit
    (hfield (by simp) hpart (List.ne_nil_of_mem hat)) hat hex hamp
  rw [readCount_numToStr hint] at hmm
  have hlen : (init.map taskmsgToStr ++ [task]).length = (init ++ [last]).length := by simp
  have hresent : (init.map taskmsgToStr).mapM strToTaskmsg = some (init.map TaskMsg.resent) := by
    rw [List.mapM_map]
    exact mapM_eq_some_map fun tm htm => strToTaskmsg_resent (hfree tm (by simp [htm]))
  have hlast : strToTaskmsg task = some last.resent := by
    rw [htask, strToTaskmsg_taskCore, strToTaskmsg_resent (hfree last (by simp))]
  rw [decodePkg, htake, pkgHead, hmm, Option.bind_some]
  simp only [Option.getD_some, Int.toNat_natCast, hlen, Nat.lt_irrefl, if_false]
  rw [← hlen, List.take_length, List.mapM_append, hresent, List.mapM_cons, hlast]
  simp

theorem length_of_mapM {α β : Type*} {f : α → Option β} {l : List α} {l' : List β}
    (h : l.mapM f = some l') : l'.length = l.length := by
  induction l generalizing l' with
  | nil =>
    cases h
    rfl
  | cons x l ih =>
    rw [List.mapM_cons] at h
    obtain ⟨y, _, h⟩ := Option.bind_eq_some_iff.1 h
    obtain ⟨ys, hys, h⟩ := Option.bind_eq_some_iff.1 h
    cases h
    rw [List.length_cons, List.length_cons, ih hys]

theorem length_of_decodePkg (hfree : ∀ t ∈ pkg, t.DelimFree) (hn : pkg.length < 2 ^ 31) {k : Nat}
    {tms : List TaskMsg} (h : decodePkg ((pkgText pkg).take k) = some tms) :
    tms.length = pkg.length := by
  have hint : IsInt pkg.length := by
    unfold IsInt
    omega
  have hpeer : CleanField "scheduler".toList := by decide
  obtain ⟨mm, hmm, h⟩ := Option.bind_eq_some_iff.1 h
  obtain ⟨_, _, hcount⟩ := strToMm_take (strToMm_mmToStr (batchMsg_clean hpeer hint hfree)) hmm
  simp only [hcount, batchMsg, Option.getD_some, Int.toNat_natCast, Option.ite_none_left_eq_some,
    not_lt] at h
  rw [length_of_mapM h.2, List.length_take, Nat.min_eq_left h.1]

end Decode

theorem recvMul_of_not_mem {reads : List Str} (hd : '$' ∉ reads.flatten)
    (hz : '\x00' ∉ reads.flatten) (buf : Str) :
    recvMul reads buf = (buf ++ reads.flatten, []) := by
  induction reads generalizing buf with
  | nil => simp [recvMul]
  | cons read reads ih =>
    rw [List.flatten_cons, List.mem_append, not_or] at hd hz
    have hlast : read.getLast? ≠ some '$' := fun h => hd.1 (List.mem_of_getLast? h)
    rw [recvMul, cstr_eq hz.1, if_neg hlast, ih hd.2 hz.2, List.flatten_cons, List.append_assoc]

theorem recvMul_prefix {reads : List Str} {p body : Str} (hp : p <+: body ++ ['$'])
    (hcut : Cut p reads) (hd : '$' ∉ body) (hz : '\x00' ∉ body) : (recvMul reads []).1 = p := by
  rcases List.prefix_concat_iff.1 hp with rfl | hp
  · rw [recvMul_of_flatten hcut.pos hcut.flatten hd hz, List.nil_append]
  · have hflat := hcut.flatten
    rw [recvMul_of_not_mem (hflat ▸ fun h => hd (hp.subset h)) (hflat ▸ fun h => hz (hp.subset h)),
      List.nil_append, hflat]

theorem dropLast_cut {p body : Str} (hp : p <+: body ++ ['$']) : p.dropLast <+: body := by
  rcases List.prefix_concat_iff.1 hp with rfl | hp
  · exact ⟨[], by rw [List.dropLast_concat, List.append_nil]⟩
  · exact ( List.dropLast_prefix p).trans hp

/-- A package that the sender can write. -/
structure PkgOk (pkg : List TaskMsg) : Prop where
  ne_nil : pkg ≠ []
  free : ∀ tm ∈ pkg, tm.DelimFree
  long : ∀ tm ∈ pkg, IsLong tm.datalength
  int : pkg.length < 2 ^ 31

section Stream

variable {tasks pkg : List TaskMsg} {pkgs done rest : List (List TaskMsg)} {p : Str}

theorem decodeBatch_tokens {texts : List Str} (htok : tokenize p.dropLast ['#', '#'] =
      headText tasks :: texts) (hne : texts ≠ []) :
    decodeBatch p = (texts.mapM decodePkg).map fun pkgs =>
      some { numTask := toInt32 tasks.length, pkgs } := by
  have hpeer : CleanField "scheduler".toList := by decide
  obtain ⟨text, texts, rfl⟩ := List.exists_cons_of_ne_nil hne
  have hcount (n : Int) : (batchMsg "scheduler".toList n []).count.getD 0 = n := rfl
  rw [decodeBatch, htok, headText]
  simp only [strToMm_header hpeer, Option.bind_some, hcount, toInt32_eq (isInt_toInt32 _)]

theorem isField_headText (tasks : List TaskMsg) : IsField '#' (headText tasks) :=
  isField_batchStr (by decide) (by simp)

theorem PkgOk.isField (h : PkgOk pkg) : IsField '#' (pkgText pkg) :=
  isField_batchStr (by decide) h.free

theorem PkgOk.decodePkg (h : PkgOk pkg) :
    decodePkg (pkgText pkg) = some (pkg.map TaskMsg.resent) := by
  have hcut := @decodePkg_cut pkg h.ne_nil h.free h.int (pkgText pkg).length (by omega)
  rwa [List.take_length] at hcut

theorem isField_texts (hok : ∀ pkg ∈ done, PkgOk pkg) :
    ∀ w ∈ headText tasks :: done.map pkgText, IsField '#' w :=
  fun w hw => (batchText_fields (by decide) (fun pkg hpkg => (hok pkg hpkg).free) w hw).1

theorem mapM_pkgText (hok : ∀ pkg ∈ done, PkgOk pkg) :
    (done.map pkgText).mapM decodePkg = some (done.map (·.map TaskMsg.resent)) := by
  have hdec : ∀ pkg ∈ done, (decodePkg ∘ pkgText) pkg = some (pkg.map TaskMsg.resent) := by
    intro pkg hpkg
    rw [Function.comp_apply, (hok pkg hpkg).decodePkg]
  rw [List.mapM_map, mapM_eq_some_map hdec]

theorem decodeBatch_done (hok : ∀ pkg ∈ done, PkgOk pkg) (hne : done ≠ [])
    (hp : p.dropLast = batchText "scheduler".toList tasks done) :
    decodeBatch p = some (some
      { numTask := toInt32 tasks.length, pkgs := done.map (·.map TaskMsg.resent) }) := by
  have htok : tokenize p.dropLast ['#', '#'] = headText tasks :: done.map pkgText := by
    rw [hp, batchText_eq, tokenize_terminate (isField_texts hok)]
  rw [decodeBatch_tokens htok (by simpa using hne), mapM_pkgText hok, Option.map_some]

theorem decodeBatch_part (hok : ∀ pkg' ∈ done, PkgOk pkg') (hpkg : PkgOk pkg) {k : Nat} (hk : k ≠ 0)
    (hp : p.dropLast =
      batchText "scheduler".toList tasks done ++ (pkgText pkg ++ ['#', '#']).take k) :
    decodeBatch p = (decodePkg ((pkgText pkg).take k)).map fun tms => some
      { numTask := toInt32 tasks.length, pkgs := done.map (·.map TaskMsg.resent) ++ [tms] } := by
  have htok : tokenize p.dropLast ['#', '#'] =
      headText tasks :: (done.map pkgText ++ [(pkgText pkg).take k]) := by
    rw [hp, batchText_eq, tokenize_terminate_append (isField_texts hok), tokenize_eq_tokens,
      tokens_take_word hpkg.isField (by simp), if_neg hk]
    rfl
  rw [decodeBatch_tokens htok (by simp), List.mapM_append, mapM_pkgText hok, List.mapM_cons]
  cases decodePkg ((pkgText pkg).take k) with
  | none => rfl
  | some tms => rfl

theorem decodeBatch_head {k : Nat} (hp : p.dropLast = (headText tasks ++ ['#', '#']).take k) :
    decodeBatch p = if k = 0 then none else some none := by
  rw [decodeBatch, hp, tokenize_eq_tokens, tokens_take_word (isField_headText tasks) (by simp)]
  by_cases hk : k = 0
  · simp [hk]
  · simp [hk]

theorem prefix_batchText {q : Str} (h : q <+: batchText "scheduler".toList tasks pkgs) :
    (∃ k, k < streamPos tasks [] ∧ q = (headText tasks ++ ['#', '#']).take k) ∨
      q = batchText "scheduler".toList tasks pkgs ∨
      ∃ done pkg rest k, pkgs = done ++ pkg :: rest ∧ k < (pkgText pkg).length + 2 ∧
        q = batchText "scheduler".toList tasks done ++ (pkgText pkg ++ ['#', '#']).take k := by
  rw [batchText_eq] at h ⊢
  rcases prefix_terminate h with hq | ⟨us, w, vs, k, hws, hq, hk⟩
  · exact .inr (.inl hq)
  · cases us with
    | nil =>
      obtain ⟨rfl, _⟩ := List.cons.inj hws
      refine .inl ⟨k, ?_, hq⟩
      rwa [streamPos, batchText_eq, List.map_nil, terminate_cons, terminate_nil, List.append_nil]
    | cons u us =>
      obtain ⟨rfl, hpkgs⟩ := List.cons.inj hws
      obtain ⟨done, more, rfl, rfl, hmore⟩ := List.map_eq_append_iff.1 hpkgs
      obtain ⟨pkg, rest, rfl, rfl, rfl⟩ := List.map_eq_cons_iff.1 hmore
      rw [List.length_append] at hk
      exact .inr (.inr ⟨done, pkg, rest, k, rfl, hk, hq⟩)

end Stream

section Harmless

variable {tasks pkg wsQueue arrived stolen : List TaskMsg} {done rest : List (List TaskMsg)}
  {reads : List Str} {p : Str}

theorem not_harmless_none : ¬ Harmless none wsQueue arrived := by
  rintro ⟨ret, stolen, h, _⟩
  cases h

theorem harmless_some {ret : Bool} :
    Harmless (some (ret, wsQueue ++ stolen)) wsQueue arrived ↔ stolen.Subperm arrived := by
  constructor
  · rintro ⟨_, stolen', h, hsub⟩
    obtain ⟨_, hqueue⟩ := Prod.mk.inj (Option.some.inj h)
    rwa [List.append_cancel_left hqueue]
  · exact fun hsub => ⟨ret, stolen, rfl, hsub⟩

theorem recvTask_batch {batch : Batch} (hrecv : (recvMul reads []).1 = p)
    (h : decodeBatch p = some (some batch)) :
    recvTaskFromScheduler reads wsQueue = some (true, wsQueue ++ batch.pkgs.flatten) := by
  have hfold : batch.pkgs.foldl (· ++ ·) wsQueue = wsQueue ++ (batch.pkgs.map id).flatten :=
    List.foldl_append_eq_append
  rw [List.map_id] at hfold
  rw [recvTaskFromScheduler, hrecv, h, ← hfold]
  rfl

theorem harmless_done (hok : ∀ pkg ∈ done, PkgOk pkg) (hne : done ≠ []) {numTask : Int}
    (hrecv : (recvMul reads []).1 = p) (hdec : decodeBatch p =
      some (some { numTask, pkgs := done.map (·.map TaskMsg.resent) }))
    (hlo : streamPos tasks done ≤ p.length + 6) (hn : p.length ≤ streamPos tasks done + 1) :
    Harmless (recvTaskFromScheduler reads wsQueue) wsQueue
        (contained tasks (done ++ rest) p.length) ↔ CutBetween tasks (done ++ rest) p.length := by
  have hall : ∀ tm ∈ done.flatten, tm.DelimFree ∧ IsLong tm.datalength := by
    intro tm htm
    obtain ⟨pkg, hpkg, htm⟩ := List.mem_flatten.1 htm
    exact ⟨(hok pkg hpkg).free tm htm, (hok pkg hpkg).long tm htm⟩
  have hflat : (done.map (·.map TaskMsg.resent)).flatten = done.flatten.map TaskMsg.resent :=
    List.map_flatten.symm
  rw [recvTask_batch hrecv hdec, harmless_some, hflat, contained_whole hlo hn,
    subperm_map_resent_iff (fun tm h => (hall tm h).1) (fun tm h => (hall tm h).2),
    cutBetween_iff hne hlo hn]

/-- A stream that is cut before the end of the last task of a package does harm: if the package can
be read at all, a task is queued that has not arrived. -/
theorem harmless_part (hok : ∀ pkg' ∈ done, PkgOk pkg') (hpkg : PkgOk pkg) {k : Nat} (hk : k ≠ 0)
    (hrecv : (recvMul reads []).1 = p) (hp : p.dropLast =
      batchText "scheduler".toList tasks done ++ (pkgText pkg ++ ['#', '#']).take k)
    (hn : p.length + 6 < streamPos tasks (done ++ [pkg])) :
    ¬ Harmless (recvTaskFromScheduler reads wsQueue) wsQueue
      (contained tasks (done ++ pkg :: rest) p.length) := by
  have hdec := decodeBatch_part hok hpkg hk hp
  cases hcut : decodePkg ((pkgText pkg).take k) with
  | none =>
    rw [hcut] at hdec
    rw [recvTaskFromScheduler, hrecv, hdec]
    exact not_harmless_none
  | some tms =>
    rw [hcut] at hdec
    rw [recvTask_batch hrecv hdec, harmless_some]
    intro hsub
    have hlen := length_of_decodePkg hpkg.free hpkg.int hcut
    have hle := hsub.length_le
    have hlt := @length_contained_lt tasks pkg done rest p.length hpkg.ne_nil hn
    rw [List.flatten_append, List.flatten_singleton, List.length_append] at hle hlt
    rw [← List.map_flatten, List.length_map, hlen] at hle
    omega

theorem harmless_head {pkgs : List (List TaskMsg)} {k : Nat} (hrecv : (recvMul reads []).1 = p)
    (hp : p.dropLast = (headText tasks ++ ['#', '#']).take k) (hk : k ≤ streamPos tasks []) :
    Harmless (recvTaskFromScheduler reads wsQueue) wsQueue (contained tasks pkgs p.length) ↔
      CutBetween tasks pkgs p.length := by
  have hdec := decodeBatch_head hp
  have hhead : streamPos tasks [] = (headText tasks ++ ['#', '#']).length := by
    rw [streamPos, batchText_eq, List.map_nil, terminate_cons, terminate_nil, List.append_nil]
  have hlen := congrArg List.length hp
  rw [List.length_dropLast, List.length_take, ← hhead, Nat.min_eq_left hk] at hlen
  by_cases hk0 : k = 0
  · rw [recvTaskFromScheduler, hrecv, hdec, if_pos hk0]
    constructor
    · exact fun h => absurd h not_harmless_none
    · rintro (⟨htwo, _⟩ | ⟨done, _, _, _, hlo, _⟩)
      · omega
      · have hpos := lt_streamPos tasks done
        omega
  · have hret : recvTaskFromScheduler reads wsQueue = some (false, wsQueue ++ []) := by
      rw [recvTaskFromScheduler, hrecv, hdec, if_neg hk0, List.append_nil]
      rfl
    rw [hret, harmless_some]
    exact ⟨fun _ => .inl ⟨by omega, by omega⟩, fun _ => List.nil_subperm⟩

/-- A stream whose last byte is the first one after some packages. -/
theorem harmless_at (hok : ∀ pkg ∈ done, PkgOk pkg) (hrecv : (recvMul reads []).1 = p)
    (hp : p.dropLast = batchText "scheduler".toList tasks done) :
    Harmless (recvTaskFromScheduler reads wsQueue) wsQueue
        (contained tasks (done ++ rest) p.length) ↔ CutBetween tasks (done ++ rest) p.length := by
  by_cases hne : done = []
  · subst hne
    refine harmless_head hrecv ?_ le_rfl
    rw [hp, streamPos, batchText_eq, List.map_nil, terminate_cons, terminate_nil, List.append_nil,
      List.take_length]
  · have hlen : p.length - 1 = streamPos tasks done := by
      rw [← List.length_dropLast, hp, streamPos]
    exact harmless_done hok hne hrecv (decodeBatch_done hok hne hp) (by omega) (by omega)

theorem harmless_inside (hok : ∀ pkg' ∈ done, PkgOk pkg') (hpkg : PkgOk pkg) {k : Nat} (hk0 : k ≠ 0)
    (hk : k < (pkgText pkg).length + 2) (hrecv : (recvMul reads []).1 = p) (hp : p.dropLast =
      batchText "scheduler".toList tasks done ++ (pkgText pkg ++ ['#', '#']).take k) :
    Harmless (recvTaskFromScheduler reads wsQueue) wsQueue
        (contained tasks (done ++ pkg :: rest) p.length) ↔
      CutBetween tasks (done ++ pkg :: rest) p.length := by
  have hsep : ['#', '#'].length = 2 := rfl
  have hsplit : done ++ pkg :: rest = (done ++ [pkg]) ++ rest := by simp
  have hpos := streamPos_append tasks done [pkg]
  rw [List.map_singleton, terminate_cons, terminate_nil, List.append_nil, List.length_append,
    hsep] at hpos
  have hlen := congrArg List.length hp
  rw [List.length_dropLast, List.length_append, List.length_take, List.length_append, hsep,
    Nat.min_eq_left hk.le, ← streamPos] at hlen
  by_cases hwhole : (pkgText pkg).length ≤ k + 5
  · have hdec : decodeBatch p = some (some
        { numTask := toInt32 tasks.length,
          pkgs := (done ++ [pkg]).map (·.map TaskMsg.resent) }) := by
      rw [decodeBatch_part hok hpkg hk0 hp,
        decodePkg_cut hpkg.ne_nil hpkg.free hpkg.int hwhole, List.map_append]
      rfl
    have hall : ∀ pkg' ∈ done ++ [pkg], PkgOk pkg' := by
      intro pkg' hmem
      rcases List.mem_append.1 hmem with hmem | hmem
      · exact hok pkg' hmem
      · rwa [List.mem_singleton.1 hmem]
    rw [hsplit]
    exact harmless_done hall (by simp) hrecv hdec (by omega) (by omega)
  · constructor
    · exact fun h => absurd h (harmless_part hok hpkg hk0 hrecv hp (by omega))
    · exact fun h => absurd h (not_cutBetween (by omega) (by omega))

end Harmless

/-- What arrives of a stolen batch is harmless exactly when the stream is cut between packages. -/
theorem recvTaskFromScheduler_harmless_iff (tasks : List TaskMsg) (maxTaskPerPkg : Int)
    (stream : Str) (hsend : sendBatchTasks maxTaskPerPkg tasks "scheduler".toList = some stream)
    (hint : min (tasks.length : Int) maxTaskPerPkg < 2 ^ 31) (hfree : ∀ t ∈ tasks, t.DelimFree)
    (hlong : ∀ t ∈ tasks, IsLong t.datalength) :
    ∃ pkgs : List (List TaskMsg), pkgs.flatten = tasks ∧
      stream = batchText "scheduler".toList tasks pkgs ++ ['$'] ∧
      ∀ p, p <+: stream → ∀ reads, Cut p reads → ∀ wsQueue,
        (Harmless (recvTaskFromScheduler reads wsQueue) wsQueue (contained tasks pkgs p.length) ↔
          CutBetween tasks pkgs p.length) := by
  obtain ⟨pkgs, _, hflat, hle, rfl⟩ := exists_pkgs hsend
  have hmem {pkg : List TaskMsg} (hpkg : pkg ∈ pkgs) {tm : TaskMsg} (htm : tm ∈ pkg) : tm ∈ tasks :=
    hflat ▸ List.mem_flatten_of_mem hpkg htm
  have hok : ∀ pkg ∈ pkgs, PkgOk pkg := fun pkg hpkg =>
    ⟨(hle pkg hpkg).1, fun tm htm => hfree tm (hmem hpkg htm),
      fun tm htm => hlong tm (hmem hpkg htm), length_lt_of_le hflat hle hint pkg hpkg⟩
  refine ⟨pkgs, hflat, rfl, fun p hp reads hcut wsQueue => ?_⟩
  obtain ⟨hd, hz⟩ := not_mem_batchText (by decide : CleanField "scheduler".toList) hfree hflat
  have hrecv := recvMul_prefix hp hcut hd hz
  rcases prefix_batchText (dropLast_cut hp) with
    ⟨k, hk, hq⟩ | hq | ⟨done, pkg, rest, k, rfl, hk, hq⟩
  · exact harmless_head hrecv hq hk.le
  · have hat := @harmless_at tasks wsQueue pkgs [] reads p hok hrecv hq
    rwa [List.append_nil] at hat
  · have hdone : ∀ pkg' ∈ done, PkgOk pkg' := fun pkg' h => hok pkg' (by simp [h])
    by_cases hk0 : k = 0
    · rw [hk0, List.take_zero, List.append_nil] at hq
      exact harmless_at hdone hrecv hq
    · exact harmless_inside hdone (hok pkg (by simp)) hk0 hk hrecv hq

/-- The stream of a single task. -/
def stolenTask : TaskMsg := ⟨"0".toList, "u".toList, "d".toList, "run".toList, -7⟩

def stolenStream : Str :=
  ("scheduler send tasks&&noextrainfo&&1&&notask&&##" ++
    "scheduler send tasks&&noextrainfo&&1&&0@@u@@d@@run@@-7@@!!&&##$").toList

theorem recvTaskFromScheduler_harmless_iff_one :
    ∃ pkgs : List (List TaskMsg), pkgs.flatten = [stolenTask] ∧
      stolenStream = batchText "scheduler".toList [stolenTask] pkgs ++ ['$'] ∧
      ∀ p, p <+: stolenStream → ∀ reads, Cut p reads → ∀ wsQueue,
        (Harmless (recvTaskFromScheduler reads wsQueue) wsQueue
            (contained [stolenTask] pkgs p.length) ↔ CutBetween [stolenTask] pkgs p.length) :=
  recvTaskFromScheduler_harmless_iff [stolenTask] 1 stolenStream (by decide +kernel) (by decide)
    (by decide) (by decide)

/-- A connection that fails makes the thief exit, and one that breaks inside the task makes it queue
another one. -/
theorem not_harmless_cut :
    sendBatchTasks 1 [stolenTask] "scheduler".toList = some stolenStream ∧
      recvTaskFromScheduler [] [] = none ∧
      Cut (stolenStream.take 98) [stolenStream.take 98] ∧
      recvTaskFromScheduler [stolenStream.take 98] [] =
        some (true, [⟨"0".toList, "u".toList, "d".toList, "ru".toList, 0⟩]) :=
  ⟨by decide +kernel, by decide, ⟨by decide +kernel, by decide +kernel, by simp⟩,
    by decide +kernel⟩

end MatrixZht
