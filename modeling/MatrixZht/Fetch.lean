import MatrixZht.Requests

namespace MatrixZht
open Lib

/-- What `exec_a_task` does with the reply to its request: the piece is appended to the data.
`none` is the exception `str_to_mm` throws. -/
def recvData (reads : List Str) (data : Str) : Option Str :=
  (strToMm (recvBig reads)).map fun mmData => data ++ mmData.extrainfo.getD []

/-- The outputs that the reply carries unchanged. -/
structure Fetchable (result : Str) : Prop where
  ne_nil : result ≠ []
  ne_absent : result ≠ "noextrainfo".toList
  amp : '&' ∉ result
  dollar : '$' ∉ result
  short : result.length + 40 ≤ 2 ^ 31

instance (result : Str) : Decidable (Fetchable result) :=
  decidable_of_iff (result ≠ [] ∧ result ≠ "noextrainfo".toList ∧ '&' ∉ result ∧ '$' ∉ result ∧
      result.length + 40 ≤ 2 ^ 31)
    ⟨fun ⟨h₁, h₂, h₃, h₄, h₅⟩ => ⟨h₁, h₂, h₃, h₄, h₅⟩,
      fun ⟨h₁, h₂, h₃, h₄, h₅⟩ => ⟨h₁, h₂, h₃, h₄, h₅⟩⟩

section SendBig

variable {buf stream : Str} {fuel : Nat} {length numSent : Nat}

theorem emod_of_lt (h : length < 2 ^ 32) : toInt32 length % 2 ^ 32 = length := by
  have hemod : toInt32 length % ((2 ^ 32 : Nat) : Int) = length % ((2 ^ 32 : Nat) : Int) :=
    Int.bmod_emod
  omega

theorem toInt32_of_lt (h : length < 2 ^ 31) : toInt32 length = length :=
  toInt32_eq ⟨by omega, by omega⟩

theorem sendBigLoop_succ (hlen : length < 2 ^ 32) :
    sendBigLoop buf (fuel + 1) (toInt32 length) (toInt32 numSent) =
      if bufSize ≤ length then
        (substr buf (toInt32 numSent) bufSize).bind fun str =>
          (sendBigLoop buf fuel (toInt32 ((length - bufSize : Nat) : Int))
            (toInt32 ((numSent + bufSize : Nat) : Int))).map (str ++ ·)
      else if 0 < length then (substr buf (toInt32 numSent) length).map (· ++ ['$'])
      else some ['$'] := by
  rw [sendBigLoop, emod_of_lt hlen]
  by_cases hge : bufSize ≤ length
  · have hsub : toInt32 (toInt32 length - bufSize) = toInt32 ((length - bufSize : Nat) : Int) := by
      rw [Int.ofNat_sub hge]
      exact Int.bmod_sub_bmod
    have hadd : toInt32 (toInt32 numSent + bufSize) =
        toInt32 ((numSent + bufSize : Nat) : Int) := by
      rw [Int.natCast_add]
      exact Int.bmod_add_bmod
    rw [if_pos (Int.ofNat_le.2 hge), if_pos hge, hsub, hadd]
    simp only [bind, pure, Option.map_eq_bind, Function.comp_def]
  · have hlt : length < 2 ^ 31 := by
      unfold bufSize at hge
      omega
    rw [if_neg (fun h => hge (Int.ofNat_le.1 h)), if_neg hge, toInt32_of_lt hlt]
    by_cases hpos : 0 < length
    · rw [if_pos hpos, if_pos (Int.natCast_pos.2 hpos), Int.toNat_natCast]
    · rw [if_neg hpos, if_neg fun h => hpos (Int.natCast_pos.1 h)]

theorem substr_of_lt {len : Nat} (hle : numSent ≤ buf.length) (hlt : numSent < 2 ^ 31) :
    substr buf (toInt32 numSent) len = some ((buf.drop numSent).take len) := by
  rw [toInt32_of_lt hlt, substr, if_pos ⟨by omega, by omega⟩, Int.toNat_natCast]

theorem substr_overflow {len : Nat} : substr buf (toInt32 ((2 ^ 31 : Nat) : Int)) len = none := by
  have hneg : toInt32 ((2 ^ 31 : Nat) : Int) = -2 ^ 31 := by decide
  rw [hneg, substr, if_neg]
  intro h
  omega

theorem sendBigLoop_eq (hfuel : length < fuel) (hsum : numSent + length = buf.length)
    (hshort : buf.length ≤ 2 ^ 31) :
    sendBigLoop buf fuel (toInt32 length) (toInt32 numSent) =
      some (buf.drop numSent ++ ['$']) := by
  induction fuel generalizing length numSent with
  | zero => omega
  | succ fuel ih =>
    rw [sendBigLoop_succ (by omega)]
    by_cases hge : bufSize ≤ length
    · have hpos : 0 < bufSize := by decide
      have hrest := @ih (length - bufSize) (numSent + bufSize) (by omega) (by omega)
      rw [if_pos hge, substr_of_lt (by omega) (by omega), hrest, Option.bind_some,
        Option.map_some, ← List.append_assoc, ← List.drop_drop, List.take_append_drop]
    · rw [if_neg hge]
      by_cases hlen : 0 < length
      · have htake : (buf.drop numSent).take length = buf.drop numSent := by
          rw [List.take_of_length_le]
          rw [List.length_drop]
          omega
        rw [if_pos hlen, substr_of_lt (by omega) (by omega), htake, Option.map_some]
      · rw [if_neg hlen, List.drop_eq_nil_of_le (by omega), List.nil_append]

theorem sendBigLoop_eq_none (hlen : length < 2 ^ 32) {k : Nat}
    (hk : numSent + k * bufSize = 2 ^ 31) (hlong : 2 ^ 31 < numSent + length) :
    sendBigLoop buf fuel (toInt32 length) (toInt32 numSent) = none := by
  induction fuel generalizing length numSent k with
  | zero => rfl
  | succ fuel ih =>
    rw [sendBigLoop_succ hlen]
    cases k with
    | zero =>
      obtain rfl : numSent = 2 ^ 31 := by omega
      by_cases hge : bufSize ≤ length
      · rw [if_pos hge, substr_overflow, Option.bind_none]
      · rw [if_neg hge, if_pos (by omega), substr_overflow, Option.map_none]
    | succ k =>
      rw [Nat.succ_mul] at hk
      have hge : bufSize ≤ length := by omega
      have hrest := @ih (length - bufSize) (numSent + bufSize) (by omega) k (by omega) (by omega)
      rw [if_pos hge, hrest]
      cases substr buf (toInt32 numSent) bufSize with
      | none => rfl
      | some str => rfl

theorem sendBigLoop_length (hlen : length < 2 ^ 32)
    (h : sendBigLoop buf fuel (toInt32 length) (toInt32 numSent) = some stream) :
    '$' ∈ stream ∧ stream.length ≤ length + 1 := by
  induction fuel generalizing length numSent stream with
  | zero => cases h
  | succ fuel ih =>
    rw [sendBigLoop_succ hlen] at h
    have htake {str : Str} {pos : Int} {len : Nat} (hs : substr buf pos len = some str) :
        str.length ≤ len := by
      rw [substr, Option.ite_none_right_eq_some] at hs
      cases hs.2
      rw [List.length_take]
      omega
    by_cases hge : bufSize ≤ length
    · rw [if_pos hge] at h
      obtain ⟨str, hstr, h⟩ := Option.bind_eq_some_iff.1 h
      obtain ⟨rest, hrest, rfl⟩ := Option.map_eq_some_iff.1 h
      obtain ⟨hmem, hle⟩ := ih (by omega) hrest
      have hstr := htake hstr
      rw [List.length_append]
      exact ⟨List.mem_append_right _ hmem, by omega⟩
    · rw [if_neg hge] at h
      by_cases hpos : 0 < length
      · rw [if_pos hpos] at h
        obtain ⟨str, hstr, rfl⟩ := Option.map_eq_some_iff.1 h
        have hstr := htake hstr
        rw [List.length_append]
        exact ⟨by simp, by simpa using hstr⟩
      · rw [if_neg hpos] at h
        cases h
        exact ⟨by simp, by simp⟩

theorem sendBig_eq_loop (buf : Str) : sendBig buf =
    sendBigLoop buf (buf.length + 1) (toInt32 ((buf.length % 2 ^ 32 : Nat) : Int))
      (toInt32 ((0 : Nat) : Int)) := by
  have hlen : toInt32 ((buf.length % 2 ^ 32 : Nat) : Int) = toInt32 buf.length := by
    rw [Int.natCast_emod]
    exact Int.emod_bmod _ _
  rw [sendBig, hlen]
  rfl

theorem sendBig_eq (h : buf.length ≤ 2 ^ 31) : sendBig buf = some (buf ++ ['$']) := by
  rw [sendBig_eq_loop, Nat.mod_eq_of_lt (by omega)]
  exact sendBigLoop_eq (Nat.lt_succ_self _) (Nat.zero_add _) h

theorem length_of_sendBig (h : sendBig buf = some stream) :
    '$' ∈ stream ∧ (2 ^ 31 < buf.length → stream.length + 2 ^ 32 ≤ buf.length + 1) := by
  rw [sendBig_eq_loop] at h
  have hmod : buf.length % 2 ^ 32 < 2 ^ 32 := Nat.mod_lt _ (by decide)
  obtain ⟨hmem, hle⟩ := sendBigLoop_length hmod h
  refine ⟨hmem, fun hlong => ?_⟩
  by_cases hlt : buf.length < 2 ^ 32
  · rw [Nat.mod_eq_of_lt hlt, sendBigLoop_eq_none hlt (k := 2 ^ 18) (by decide) (by omega)] at h
    cases h
  · omega

end SendBig

section RecvBig

variable {stream result data : Str} {reads : List Str}

/-- A stream read byte by byte. -/
def singles (stream : Str) : List Str := stream.map fun c => [c]

theorem cut_singles (stream : Str) : Cut stream (singles stream) where
  pos := by simp [singles]
  room := by simp [singles, bufSize]
  flatten := by simp [singles, ← List.flatMap_def]

theorem length_recvMul (reads : List Str) (buf : Str) :
    (recvMul reads buf).1.length ≤ buf.length + reads.flatten.length := by
  induction reads generalizing buf with
  | nil => simp [recvMul]
  | cons read reads ih =>
    have hcstr : (cstr read).length ≤ read.length := (List.takeWhile_sublist _).length_le
    have hrest := ih (buf ++ cstr read)
    rw [List.length_append] at hrest
    rw [recvMul, List.flatten_cons, List.length_append]
    split
    · rw [List.length_append]
      omega
    · omega

theorem recvMul_singles {body rest : Str} (hd : '$' ∉ body) (hz : '\x00' ∉ body) (buf : Str) :
    recvMul (singles (body ++ '$' :: rest)) buf = (buf ++ (body ++ ['$']), singles rest) := by
  induction body generalizing buf with
  | nil => rfl
  | cons c body ih =>
    rw [List.mem_cons, not_or] at hd hz
    have hstop : ¬ [c].getLast? = some '$' := by simpa using Ne.symm hd.1
    have hcons : singles (c :: body ++ '$' :: rest) = [c] :: singles (body ++ '$' :: rest) := rfl
    rw [hcons, recvMul, cstr_eq (by simpa using hz.1), if_neg hstop, ih hd.2 hz.2]
    simp

theorem recvBig_singles {body rest : Str} (hd : '$' ∉ body) (hz : '\x00' ∉ body) :
    recvBig (singles (body ++ '$' :: rest)) = body := by
  rw [recvBig, recvMul_singles hd hz, List.nil_append, List.dropLast_concat]

theorem dataText_eq (result : Str) : dataText result =
    "scheduler send data".toList ++ (['&', '&'] ++ (result ++ "&&nocount&&notask&&".toList)) := by
  simp [dataText, mmToStr]

theorem length_dataText (result : Str) : (dataText result).length = result.length + 40 := by
  rw [dataText_eq]
  simp only [List.length_append]
  have hlen : "scheduler send data".toList.length = 19 ∧ ['&', '&'].length = 2 ∧
      "&&nocount&&notask&&".toList.length = 19 := by decide
  omega

theorem not_mem_dataText {d : Char} (hr : d ∉ result) (hd : d ∉ (dataText [])) :
    d ∉ dataText result := by
  rw [dataText_eq] at hd ⊢
  simp only [List.mem_append, List.nil_append, not_or] at hd ⊢
  exact ⟨hd.1, hd.2.1, hr, hd.2.2⟩

theorem extrainfo_of_strToMm {str : Str} {mm : MatrixMsg} (h : strToMm str = some mm) :
    mm.extrainfo.getD [] = [] ∨ (mm.extrainfo.getD [] ∈ tokenize str ['&', '&'] ∧
      mm.extrainfo.getD [] ≠ "noextrainfo".toList) := by
  unfold strToMm at h
  split at h
  · next msgtype extrainfo count tasks rest htok =>
    obtain rfl := Option.some.inj h
    by_cases he : extrainfo = "noextrainfo".toList
    · rw [if_neg (not_not.2 he)]
      exact .inl rfl
    · rw [if_pos he, htok]
      exact .inr ⟨List.mem_cons_of_mem _ List.mem_cons_self, he⟩
  · cases h

theorem strToMm_cut (hamp : '&' ∉ result) :
    strToMm ("scheduler send data".toList ++ (['&', '&'] ++ result)) = none := by
  have hword : IsField '&' "scheduler send data".toList := by
    rw [isField_iff]
    decide
  have hclean : ∀ c ∈ result, ['&', '&'].contains c = false := by
    intro c hc
    have hne : c ≠ '&' := fun he => hamp (he ▸ hc)
    simp [hne]
  rw [strToMm, tokenize_eq_tokens, tokens_word_append hword (by simp) (by simp),
    tokens_of_clean hclean]
  by_cases hnil : result.isEmpty = true
  · rw [if_pos hnil]
  · rw [if_neg hnil]

theorem strToMm_dataText (h : Fetchable result) : strToMm (dataText result) =
    some { msgtype := "scheduler send data".toList, extrainfo := some result } :=
  strToMm_mmToStr (MatrixMsg.clean_of_extrainfo (isField_word (by decide))
    (isField_iff.2 ⟨h.ne_nil, h.amp⟩) h.ne_absent)

/-- However the reply is cut, the output is appended as it was. -/
theorem recvData_of_fetchable (h : Fetchable result) (hz : '\x00' ∉ result)
    (hcut : Cut (dataText result ++ ['$']) reads) :
    recvData reads data = some (data ++ result) := by
  have hrecv := recvMul_of_flatten hcut.pos hcut.flatten
    (not_mem_dataText h.dollar (by decide)) (not_mem_dataText hz (by decide)) []
  rw [recvData, recvBig, hrecv, List.nil_append, List.dropLast_concat, strToMm_dataText h]
  rfl

/-- A reply that gives the output back byte by byte carries it unchanged. -/
theorem fetchable_of_recvData (hz : '\x00' ∉ result)
    (hsend : sendBig (dataText result) = some stream)
    (hrecv : recvData (singles stream) [] = some result) : Fetchable result := by
  obtain ⟨mm, hmm, hinfo⟩ := Option.map_eq_some_iff.1 hrecv
  rw [List.nil_append] at hinfo
  have htok := extrainfo_of_strToMm hmm
  rw [hinfo] at htok
  obtain ⟨hmem, hlong⟩ := length_of_sendBig hsend
  have hshort : result.length + 40 ≤ 2 ^ 31 := by
    by_contra hlt
    have hlong := hlong (by rw [length_dataText]; omega)
    rw [length_dataText] at hlong
    have hflat : (singles stream).flatten = stream := (cut_singles stream).flatten
    have hrecvLen := length_recvMul (singles stream) []
    rw [hflat, List.length_nil] at hrecvLen
    rcases htok with hnil | ⟨hmem, _⟩
    · rw [hnil] at hlt
      exact hlt (by decide)
    · have hle := (sublist_of_mem_tokens (tokenize_eq_tokens _ _ ▸ hmem)).length_le
      rw [recvBig, List.length_dropLast] at hle
      omega
  rw [sendBig_eq (by rw [length_dataText]; exact hshort)] at hsend
  cases hsend
  have hne : result ≠ [] := by
    rintro rfl
    have hempty : recvBig (singles (dataText [] ++ ['$'])) = dataText [] :=
      recvBig_singles (by decide) (by decide)
    have hnone : strToMm (dataText []) = none := by decide
    rw [hempty, hnone] at hmm
    cases hmm
  obtain ⟨hmem, hne'⟩ := htok.resolve_left hne
  have hamp : '&' ∉ result :=
    (isField_iff.1 (isWord_of_mem_tokens (tokenize_eq_tokens _ _ ▸ hmem))).2
  refine ⟨hne, hne', hamp, fun hdollar => ?_, hshort⟩
  obtain ⟨body, rest, rfl, hbody⟩ := List.eq_append_cons_of_mem hdollar
  have hsplit : dataText (body ++ '$' :: rest) ++ ['$'] =
      ("scheduler send data".toList ++ (['&', '&'] ++ body)) ++
        '$' :: (rest ++ "&&nocount&&notask&&".toList ++ ['$']) := by
    rw [dataText_eq]
    simp
  have hcut : strToMm ("scheduler send data".toList ++ (['&', '&'] ++ body)) = none :=
    strToMm_cut fun h => hamp (List.mem_append_left _ h)
  rw [hsplit, recvBig_singles, hcut] at hmm
  · cases hmm
  · simp only [List.mem_append, not_or]
    exact ⟨by decide, by decide, hbody⟩
  · simp only [List.mem_append, not_or]
    exact ⟨by decide, by decide, fun h => hz (List.mem_append_left _ h)⟩

end RecvBig

section Exchange

variable {maxTaskPerPkg : Int} {fuel : Nat} {ks : List Nat} {s : Store} {node : Node}
  {buf result : Str} {rest : List Str} {mm : MatrixMsg}

theorem procReq_requireData (hreq : readRequest buf = some (.requireData mm)) :
    procReq maxTaskPerPkg fuel ks s node buf rest =
      (sendData mm node.localData).map fun reply => { node, store := s, reply } := by
  rw [procReq, hreq, Option.bind_eq_bind, Option.bind_some]

theorem sendData_eq (hdata : node.localData (mm.extrainfo.getD []) = some result) :
    sendData mm node.localData = sendBig (dataText result) := by
  rw [sendData, hdata, Option.getD_some]

/-- The request in `buf` is answered, and the answer appends `result` however it is cut. -/
def FetchExact (maxTaskPerPkg : Int) (fuel : Nat) (ks : List Nat) (s : Store) (node : Node)
    (buf : Str) (rest : List Str) (result : Str) : Prop :=
  ∃ served, procReq maxTaskPerPkg fuel ks s node buf rest = some served ∧
    ∀ reads, Cut served.reply reads → ∀ data, recvData reads data = some (data ++ result)

/-- A piece of data is fetched exactly when it fits into the text of the reply. -/
theorem fetchExact_iff_fetchable (hreq : readRequest buf = some (.requireData mm))
    (hdata : node.localData (mm.extrainfo.getD []) = some result) (hz : '\x00' ∉ result) :
    FetchExact maxTaskPerPkg fuel ks s node buf rest result ↔ Fetchable result := by
  constructor
  · intro h
    obtain ⟨served, hserved, hrecv⟩ := h
    rw [procReq_requireData hreq, sendData_eq hdata] at hserved
    obtain ⟨stream, hsend, rfl⟩ := Option.map_eq_some_iff.1 hserved
    exact fetchable_of_recvData hz hsend (hrecv _ (cut_singles stream) [])
  · intro h
    have hsend : sendBig (dataText result) = some (dataText result ++ ['$']) :=
      sendBig_eq (by rw [length_dataText]; exact h.short)
    rw [FetchExact, procReq_requireData hreq, sendData_eq hdata, hsend]
    exact ⟨_, rfl, fun reads hcut data => recvData_of_fetchable h hz hcut⟩

/-- A scheduler that has run one task. -/
def ranNode (result : Str) : Node where
  localData := fun key => if key = "n100".toList then some result else none

theorem fetchExact_iff_fetchable_word :
    FetchExact 10 0 [] (fun _ => none) (ranNode "a 1%".toList)
        "scheduler require data&&n100&&nocount&&notask&&".toList [] "a 1%".toList ↔
      Fetchable "a 1%".toList := by
  have hreq : readRequest "scheduler require data&&n100&&nocount&&notask&&".toList =
      some (.requireData ⟨"scheduler require data".toList, some "n100".toList, none, []⟩) := by
    decide
  exact fetchExact_iff_fetchable hreq (by decide) (by decide)

/-- The output of a command that prints nothing. -/
theorem not_fetchExact_empty :
    ¬ FetchExact 10 0 [] (fun _ => none) (ranNode [])
        "scheduler require data&&n100&&nocount&&notask&&".toList [] [] := by
  intro h
  obtain ⟨served, hserved, hrecv⟩ := h
  have hreq : readRequest "scheduler require data&&n100&&nocount&&notask&&".toList =
      some (.requireData ⟨"scheduler require data".toList, some "n100".toList, none, []⟩) := by
    decide
  rw [procReq_requireData hreq] at hserved
  obtain ⟨stream, hsend, rfl⟩ := Option.map_eq_some_iff.1 hserved
  obtain rfl : stream = dataText [] ++ ['$'] := by
    have heq : sendData ⟨"scheduler require data".toList, some "n100".toList, none, []⟩
        (ranNode []).localData = some (dataText [] ++ ['$']) := by decide
    exact Option.some.inj (hsend.symm.trans heq)
  have hnone : recvData [dataText [] ++ ['$']] [] = none := by decide
  have hcut : Cut (dataText [] ++ ['$']) [dataText [] ++ ['$']] :=
    ⟨by decide, by decide, by decide⟩
  rw [hrecv _ hcut] at hnone
  cases hnone

end Exchange

end MatrixZht
