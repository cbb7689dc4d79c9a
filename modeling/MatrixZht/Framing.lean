import MatrixZht.Fetch

namespace MatrixZht
open Lib

/-- The loop of `send_big` with what each `send_bf` writes and the number that is returned. -/
def sendBigParts (buf : Str) : Nat → Int → Int → Option (List Str × Int)
  | 0, _, _ => none
  | fuel + 1, length, numSent =>
    if bufSize ≤ length % 2 ^ 32 then do
      let str ← substr buf numSent bufSize
      let (sent, numSent) ←
        sendBigParts buf fuel (toInt32 (length - bufSize)) (toInt32 (numSent + bufSize))
      return (str :: sent, numSent)
    else
      (if length > 0 then (substr buf numSent length.toNat).map (· ++ ['$']) else some ['$']).map
        fun str => ([str], toInt32 (numSent + str.length))

/-- `send_big` -/
def sendBigCount (buf : Str) : Option (List Str × Int) :=
  sendBigParts buf (buf.length + 1) (toInt32 buf.length) 0

/-- `recv_mul` with the number of bytes that it returns. -/
def recvMulCount : List Str → Int → Str → Int × Str × List Str
  | [], sum, buf => (sum, buf, [])
  | read :: reads, sum, buf =>
    let sum := toInt32 (sum + read.length)
    let tmpBuf := cstr read
    if tmpBuf.getLast? = some '$' then (sum, buf ++ tmpBuf, reads)
    else recvMulCount reads sum (buf ++ tmpBuf)

/-- `recv_big`, with the reads that it leaves. -/
def recvBigCount (reads : List Str) (buf : Str) : Int × Str × List Str :=
  let (count, buf, reads) := recvMulCount reads 0 buf
  (count, buf.dropLast, reads)

section Send

variable {buf : Str} {fuel : Nat}

theorem sendBigLoop_eq_parts (length numSent : Int) : sendBigLoop buf fuel length numSent =
    (sendBigParts buf fuel length numSent).map fun r => r.1.flatten := by
  induction fuel generalizing length numSent with
  | zero => rfl
  | succ fuel ih =>
    rw [sendBigLoop, sendBigParts]
    split
    · rw [ih]
      cases substr buf numSent bufSize with
      | none => rfl
      | some str =>
        cases sendBigParts buf fuel (toInt32 (length - bufSize)) (toInt32 (numSent + bufSize)) with
        | none => rfl
        | some r => rfl
    · simp [Option.map_map, Function.comp_def]

/-- The parts are the bytes of `sendBig`. -/
theorem sendBig_eq_count (buf : Str) :
    sendBig buf = (sendBigCount buf).map fun r => r.1.flatten :=
  sendBigLoop_eq_parts _ _

theorem sendBigParts_eq {length numSent : Nat} (hfuel : length < fuel)
    (hsum : numSent + length = buf.length) (hshort : buf.length < 2 ^ 31 - 1) :
    ∃ sent, sendBigParts buf fuel length numSent = some (sent, (buf.length : Int) + 1) ∧
      sent.flatten = buf.drop numSent ++ ['$'] := by
  induction fuel generalizing length numSent with
  | zero => omega
  | succ fuel ih =>
    have hmod : (length : Int) % 2 ^ 32 = length := by omega
    have hpos : 0 < bufSize := by decide
    rw [sendBigParts, hmod]
    by_cases hge : bufSize ≤ length
    · obtain ⟨sent, hsent, hflat⟩ :=
        @ih (length - bufSize) (numSent + bufSize) (by omega) (by omega)
      have hlength : toInt32 ((length : Int) - bufSize) = (length - bufSize : Nat) := by
        rw [toInt32_eq ⟨by omega, by omega⟩, Int.ofNat_sub hge]
      have hnum : toInt32 ((numSent : Int) + bufSize) = (numSent + bufSize : Nat) := by
        rw [toInt32_eq ⟨by omega, by omega⟩, Int.natCast_add]
      have hstr : substr buf numSent bufSize = some ((buf.drop numSent).take bufSize) := by
        rw [substr, if_pos ⟨by omega, by omega⟩, Int.toNat_natCast]
      refine ⟨(buf.drop numSent).take bufSize :: sent, ?_, ?_⟩
      · rw [if_pos (Int.ofNat_le.2 hge), hlength, hnum, hstr, hsent]
        rfl
      · rw [List.flatten_cons, hflat, ← List.drop_drop, ← List.append_assoc,
          List.take_append_drop]
    · have hlast : (if (length : Int) > 0 then
          (substr buf numSent (length : Int).toNat).map (· ++ ['$']) else some ['$']) =
            some (buf.drop numSent ++ ['$']) := by
        by_cases hlen : 0 < length
        · have htake : (buf.drop numSent).take length = buf.drop numSent := by
            rw [List.take_of_length_le]
            rw [List.length_drop]
            omega
          rw [if_pos (Int.natCast_pos.2 hlen), substr, if_pos ⟨by omega, by omega⟩,
            Int.toNat_natCast, Int.toNat_natCast, htake]
          rfl
        · rw [if_neg (by omega), List.drop_eq_nil_of_le (by omega), List.nil_append]
      refine ⟨[buf.drop numSent ++ ['$']], ?_, List.flatten_singleton ..⟩
      have hcount : toInt32 ((numSent : Int) + (buf.drop numSent ++ ['$']).length) =
          buf.length + 1 := by
        rw [List.length_append, List.length_drop, List.length_singleton]
        rw [toInt32_eq ⟨by omega, by omega⟩]
        omega
      rw [if_neg (fun h => hge (Int.ofNat_le.1 h)), hlast, Option.map_some, hcount]

theorem sendBigCount_eq (h : buf.length < 2 ^ 31 - 1) :
    ∃ sent, sendBigCount buf = some (sent, (buf.length : Int) + 1) ∧
      sent.flatten = buf ++ ['$'] := by
  rw [sendBigCount, toInt32_eq ⟨by omega, by omega⟩]
  exact @sendBigParts_eq buf (buf.length + 1) buf.length 0 (Nat.lt_succ_self _) (Nat.zero_add _) h

end Send

section Recv

variable {payload stream : Str} {reads : List Str}

theorem recvMulCount_snd (sum : Int) (buf : Str) :
    (recvMulCount reads sum buf).2 = recvMul reads buf := by
  induction reads generalizing sum buf with
  | nil => rfl
  | cons read reads ih =>
    rw [recvMulCount, recvMul]
    split
    · rfl
    · exact ih _ _

theorem recvMulCount_fst (sum : Nat) (buf : Str) : ∃ used,
    reads = used ++ (recvMul reads buf).2 ∧ (recvMulCount reads (toInt32 sum) buf).1 =
      toInt32 ((sum + used.flatten.length : Nat) : Int) := by
  induction reads generalizing sum buf with
  | nil => exact ⟨[], rfl, by rw [recvMulCount, List.flatten_nil, List.length_nil, Nat.add_zero]⟩
  | cons read reads ih =>
    have hsum :
        toInt32 (toInt32 sum + read.length) = toInt32 ((sum + read.length : Nat) : Int) := by
      rw [Int.natCast_add]
      exact Int.bmod_add_bmod
    rw [recvMulCount, recvMul, hsum]
    split
    · refine ⟨[read], rfl, ?_⟩
      rw [List.flatten_singleton]
    · obtain ⟨used, hused, hcount⟩ := ih (sum + read.length) (buf ++ cstr read)
      refine ⟨read :: used, congrArg (read :: ·) hused, ?_⟩
      rw [hcount, List.flatten_cons, List.length_append, Nat.add_assoc]

theorem recvBigCount_eq (hd : '$' ∉ payload) (hz : '\x00' ∉ payload)
    (hlen : payload.length < 2 ^ 31 - 1) (hcut : Cut (payload ++ ['$']) reads) :
    recvBigCount reads [] = ((payload.length : Int) + 1, payload, []) := by
  have hrecv := recvMul_of_flatten hcut.pos hcut.flatten hd hz []
  obtain ⟨used, hused, hcount⟩ := @recvMulCount_fst reads 0 []
  have hsnd := @recvMulCount_snd reads 0 []
  rw [hrecv, List.append_nil] at hused
  rw [← hused, hcut.flatten, List.length_append, List.length_singleton, Nat.zero_add] at hcount
  have hfst : (recvMulCount reads 0 []).1 = payload.length + 1 :=
    hcount.trans (toInt32_eq ⟨by omega, by omega⟩)
  rw [recvBigCount]
  rw [hrecv] at hsnd
  simp only [hfst, hsnd, List.nil_append, List.dropLast_concat]

end Recv

/-- A payload is sent with one marker after it, and comes back however the stream is cut. -/
theorem sendBig_recvBig (payload : Str) (hd : '$' ∉ payload) (hz : '\x00' ∉ payload)
    (hlen : payload.length < 2 ^ 31 - 1) :
    ∃ sent, sendBigCount payload = some (sent, (payload.length : Int) + 1) ∧
      sent.flatten = payload ++ ['$'] ∧
      ∀ reads, Cut sent.flatten reads →
        recvBigCount reads [] = ((payload.length : Int) + 1, payload, []) := by
  obtain ⟨sent, hsent, hflat⟩ := sendBigCount_eq hlen
  exact ⟨sent, hsent, hflat, fun reads hcut => recvBigCount_eq hd hz hlen (hflat ▸ hcut)⟩

/-- A payload of two chunks, read in three parts that end elsewhere. -/
theorem sendBig_recvBig_chunks :
    let payload := List.replicate (bufSize + 1) 'a'
    ∃ sent, sendBigCount payload = some (sent, (payload.length : Int) + 1) ∧
      sent.map List.length = [bufSize, 2] ∧ sent.flatten = payload ++ ['$'] ∧
      recvBigCount [List.replicate (bufSize - 1) 'a', List.replicate 2 'a', ['$']] [] =
        ((payload.length : Int) + 1, payload, []) := by
  intro payload
  have hlen : payload.length = bufSize + 1 := List.length_replicate
  obtain ⟨sent, hsent, hflat, hrecv⟩ := sendBig_recvBig payload
    (by simp [payload, List.mem_replicate]) (by simp [payload, List.mem_replicate])
    (by rw [hlen]; decide)
  have hsizes : (sendBigCount payload).map (fun p => p.1.map List.length) = some [bufSize, 2] := by
    decide +kernel
  rw [hsent] at hsizes
  refine ⟨sent, hsent, Option.some.inj hsizes, hflat, hrecv _ ?_⟩
  rw [hflat]
  refine ⟨by decide +kernel, by decide +kernel, ?_⟩
  have hsum : bufSize - 1 + 2 = bufSize + 1 := by decide
  rw [List.flatten_cons, List.flatten_cons, List.flatten_singleton, ← List.append_assoc,
    List.replicate_append_replicate, hsum]

end MatrixZht
