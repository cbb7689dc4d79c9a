import MatrixZht.Transfer
import MatrixZht.Zht.Server

namespace MatrixZht

/-- A message on the connection `fd`. -/
structure Sent where
  fd : Nat
  text : Str
deriving DecidableEq

/-- What is sent back passes through a C string. -/
def TCPStub.sendBack (fd : Nat) (sendbuf : Str) : Sent := ⟨fd, cstr sendbuf⟩

/-- The server after an operation, the messages the operation sent and the result it returns. -/
structure Outcome where
  worker : HTWorker
  sent : List Sent
  result : Str

-- The operations of the build with callbacks, which send their replies themselves.
namespace Sccb

section Ops

variable (hash : Str → Nat) (resizeDue : Int → Nat → Bool) (serialize : ZPack → Str) (addr : Nat)

/-- The end of an operation that sends its result. -/
def answer (w : HTWorker) (r : NoVoHT × Str) : Outcome :=
  ⟨{ w with pmap := r.1 }, [TCPStub.sendBack addr r.2], []⟩

def insert (w : HTWorker) (zpack : ZPack) : Outcome :=
  answer addr w (HTWorker.insertShared hash resizeDue w.pmap zpack)

def lookup (w : HTWorker) (zpack : ZPack) : Outcome :=
  answer addr w (w.pmap, HTWorker.lookupShared hash w.pmap zpack)

def append (w : HTWorker) (zpack : ZPack) : Outcome :=
  answer addr w (HTWorker.appendShared hash serialize w.pmap zpack)

def remove (w : HTWorker) (zpack : ZPack) : Outcome :=
  answer addr w (HTWorker.removeShared hash w.pmap zpack)

/-- An empty key is only returned as an error. -/
def compareSwap (w : HTWorker) (zpack : ZPack) : Outcome :=
  if (zpack.key.getD []).isEmpty then ⟨w, [], recEmptyKey⟩
  else
    let (pmap, result) := HTWorker.compareSwapInternal hash resizeDue w.pmap zpack
    let lkpresult := HTWorker.lookupShared hash pmap zpack
    answer addr w (pmap, result ++ HTWorker.eraseStatusCode lkpresult)

/-- The callback is answered later, by the thread that works off the queue. -/
def stateChangeCallback (w : HTWorker) (zpack : ZPack) : Outcome :=
  ⟨{ w with pqueue := w.pqueue ++ [zpack] }, [], []⟩

def run (w : HTWorker) (buf : Str) : Outcome :=
  let zpack := strToZpack buf
  let opcode := zpack.opcode.getD []
  if opcode = opcLookup then lookup hash addr w zpack
  else if opcode = opcInsert then insert hash resizeDue addr w zpack
  else if opcode = opcAppend then append hash serialize addr w zpack
  else if opcode = opcCmpswp then compareSwap hash resizeDue addr w zpack
  else if opcode = opcRemove then remove hash addr w zpack
  else if opcode = opcStchgcb then stateChangeCallback w zpack
  else ⟨w, [], recUopc⟩

/-- The result of `run` is dropped: the operations have sent it. -/
def recvsend (w : HTWorker) (recvbuf : Str) : HTWorker × List Sent :=
  let recvstr := cstr recvbuf
  let outcome := run hash resizeDue serialize addr w (cstr recvstr)
  (outcome.worker, outcome.sent)

end Ops

section Answers

variable {hash : Str → Nat} {resizeDue : Int → Nat → Bool} {serialize : ZPack → Str} {addr : Nat}
  {w : HTWorker} {zpack : ZPack} {buf recvbuf : Str}

theorem run_eq (hash : Str → Nat) (resizeDue : Int → Nat → Bool) (serialize : ZPack → Str)
    (addr : Nat) (w : HTWorker) (buf : Str) :
    (run hash resizeDue serialize addr w buf).worker =
        (w.run hash resizeDue serialize buf).1 ∧
      (run hash resizeDue serialize addr w buf).sent =
        ((w.run hash resizeDue serialize buf).2.map (TCPStub.sendBack addr)).toList := by
  simp only [run, HTWorker.run]
  split
  · exact ⟨rfl, rfl⟩
  split
  · exact ⟨rfl, rfl⟩
  split
  · exact ⟨rfl, rfl⟩
  split
  · unfold compareSwap HTWorker.compareSwap
    split
    · exact ⟨rfl, rfl⟩
    · exact ⟨rfl, rfl⟩
  split
  · exact ⟨rfl, rfl⟩
  split
  · exact ⟨rfl, rfl⟩
  · exact ⟨rfl, rfl⟩

/-- A reply starts with a status. -/
def HasStatus (reply : Str) : Prop :=
  ∃ status ∈ [recEmptyKey, recSrvExp, recNonexistKey, recSucc], ∃ rest, reply = status ++ rest

theorem HasStatus.append {reply : Str} (h : HasStatus reply) (rest : Str) :
    HasStatus (reply ++ rest) := by
  obtain ⟨status, hs, t, rfl⟩ := h
  exact ⟨status, hs, t ++ rest, List.append_assoc ..⟩

theorem HasStatus.of_mem {status : Str}
    (h : status ∈ [recEmptyKey, recSrvExp, recNonexistKey, recSucc]) : HasStatus status :=
  ⟨status, h, [], (List.append_nil status).symm⟩

theorem HasStatus.cstr_ne_nil {reply : Str} (h : HasStatus reply) : cstr reply ≠ [] := by
  obtain ⟨status, hs, rest, rfl⟩ := h
  simp only [List.mem_cons, List.not_mem_nil, or_false] at hs
  rcases hs with rfl | rfl | rfl | rfl <;> exact List.cons_ne_nil _ _

theorem hasStatus_ret (ret : Int) : HasStatus (if ret ≠ 0 then recNonexistKey else recSucc) := by
  split
  · exact .of_mem (by decide)
  · exact .of_mem (by decide)

theorem hasStatus_insertShared (pmap : NoVoHT) (zpack : ZPack) :
    HasStatus (HTWorker.insertShared hash resizeDue pmap zpack).2 := by
  dsimp only [HTWorker.insertShared]
  split
  · exact .of_mem (by simp)
  · dsimp only
    exact hasStatus_ret _

theorem hasStatus_lookupShared (pmap : NoVoHT) (zpack : ZPack) :
    HasStatus (HTWorker.lookupShared hash pmap zpack) := by
  dsimp only [HTWorker.lookupShared]
  split
  · exact .of_mem (by decide)
  · split
    · exact (HasStatus.of_mem (by decide)).append _
    · exact (HasStatus.of_mem (by decide)).append _

theorem hasStatus_appendShared (pmap : NoVoHT) (zpack : ZPack) :
    HasStatus (HTWorker.appendShared hash serialize pmap zpack).2 := by
  dsimp only [HTWorker.appendShared]
  split
  · exact .of_mem (by simp)
  · exact hasStatus_ret _

theorem hasStatus_removeShared (pmap : NoVoHT) (zpack : ZPack) :
    HasStatus (HTWorker.removeShared hash pmap zpack).2 := by
  dsimp only [HTWorker.removeShared]
  split
  · exact .of_mem (by simp)
  · exact hasStatus_ret _

theorem hasStatus_compareSwapInternal (pmap : NoVoHT) (zpack : ZPack) :
    HasStatus (HTWorker.compareSwapInternal hash resizeDue pmap zpack).2 := by
  dsimp only [HTWorker.compareSwapInternal]
  split
  · exact hasStatus_insertShared pmap _
  · exact .of_mem (by simp)

/-- One message with a text, on the connection of the request. -/
def Answered (addr : Nat) (sent : List Sent) : Prop :=
  ∃ reply, sent = [⟨addr, reply⟩] ∧ reply ≠ []

/-- The requests an operation answers. -/
def Answerable (zpack : ZPack) : Prop :=
  zpack.opcode.getD [] ∈ [opcLookup, opcRemove, opcInsert, opcAppend] ∨
    zpack.opcode.getD [] = opcCmpswp ∧ zpack.key.getD [] ≠ []

instance (zpack : ZPack) : Decidable (Answerable zpack) :=
  inferInstanceAs (Decidable (_ ∨ _ ∧ _))

theorem answered_answer {r : NoVoHT × Str} (h : HasStatus r.2) :
    Answered addr (answer addr w r).sent :=
  ⟨cstr r.2, rfl, h.cstr_ne_nil⟩

theorem not_answered_nil : ¬ Answered addr [] := by
  rintro ⟨reply, hsent, _⟩
  cases hsent

theorem answered_compareSwap_iff :
    Answered addr (compareSwap hash resizeDue addr w zpack).sent ↔ zpack.key.getD [] ≠ [] := by
  unfold compareSwap
  split
  · next hk => exact iff_of_false not_answered_nil (not_not_intro (by simpa using hk))
  · next hk =>
    exact iff_of_true (answered_answer ((hasStatus_compareSwapInternal w.pmap zpack).append _))
      (by simpa using hk)

/-- Every request of the five operations is answered, except for a swap without a key; no other
request is. -/
theorem recvsend_answered_iff
    (h : (strToZpack (cstr recvbuf)).opcode.getD [] ≠ opcStchgcb) :
    Answered addr (recvsend hash resizeDue serialize addr w recvbuf).2 ↔
      Answerable (strToZpack (cstr recvbuf)) := by
  have hcut : cstr (cstr recvbuf) = cstr recvbuf := cstr_eq (nul_not_mem_cstr recvbuf)
  simp only [recvsend, hcut, run]
  generalize strToZpack (cstr recvbuf) = zpack at h ⊢
  split
  · next ho =>
    exact iff_of_true (answered_answer (hasStatus_lookupShared w.pmap zpack)) (.inl (by simp [ho]))
  split
  · next ho =>
    exact iff_of_true (answered_answer (hasStatus_insertShared w.pmap zpack)) (.inl (by simp [ho]))
  split
  · next ho =>
    exact iff_of_true (answered_answer (hasStatus_appendShared w.pmap zpack)) (.inl (by simp [ho]))
  split
  · next ho =>
    rw [answered_compareSwap_iff, Answerable, ho]
    have hne : opcCmpswp ∉ [opcLookup, opcRemove, opcInsert, opcAppend] := by decide
    simp [hne]
  split
  · next ho =>
    exact iff_of_true (answered_answer (hasStatus_removeShared w.pmap zpack)) (.inl (by simp [ho]))
  · next h₁ h₂ h₃ h₄ h₅ =>
    refine iff_of_false not_answered_nil ?_
    rintro (hmem | ⟨ho, _⟩)
    · simp only [List.mem_cons, List.not_mem_nil, or_false] at hmem
      rcases hmem with ho | ho | ho | ho
      · exact h₁ ho
      · exact h₅ ho
      · exact h₂ ho
      · exact h₃ ho
    · exact h₄ ho

end Answers

theorem recvsend_answered_iff_swap :
    Answered 7 (recvsend (fun _ => 0) (fun _ _ => false) zpackToStr 7 { pmap := { size := 1 } }
      "005//a//1//2//1//0//0//3//".toList).2 :=
  (recvsend_answered_iff (by decide)).2 (by decide)

/-- Neither a swap without a key nor a text that is no request is answered. -/
theorem not_answered_unread :
    ¬ Answered 7 (recvsend (fun _ => 0) (fun _ _ => false) zpackToStr 7 { pmap := { size := 1 } }
        "005//nokey//1//2//1//0//0//3//".toList).2 ∧
      ¬ Answered 7 (recvsend (fun _ => 0) (fun _ _ => false) zpackToStr 7
        { pmap := { size := 1 } } "hello".toList).2 := by
  have hnone : ∀ recvbuf ∈ ["005//nokey//1//2//1//0//0//3//".toList, "hello".toList],
      (recvsend (fun _ => 0) (fun _ _ => false) zpackToStr 7
        { pmap := { size := 1 } } recvbuf).2 = [] := by
    decide
  rw [hnone _ (by simp), hnone _ (by simp)]
  exact ⟨not_answered_nil, not_answered_nil⟩

end Sccb

end MatrixZht
