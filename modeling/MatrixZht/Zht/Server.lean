import MatrixZht.Zht.Novoht
import MatrixZht.Zht.Zpack

namespace MatrixZht

def recEmptyKey : Str := "-01".toList

def recSrvExp : Str := "-04".toList

def recSccbPollTry : Str := "-91".toList

def recNonexistKey : Str := "-92".toList

def recUopc : Str := "-98".toList

def recSucc : Str := "000".toList

def opcLookup : Str := "001".toList

def opcRemove : Str := "002".toList

def opcInsert : Str := "003".toList

def opcAppend : Str := "004".toList

def opcCmpswp : Str := "005".toList

def opcStchgcb : Str := "006".toList

def opcodes : List Str := [opcLookup, opcRemove, opcInsert, opcAppend, opcCmpswp, opcStchgcb]

/-- A server: the table it serves and the state change callbacks waiting to be answered. -/
structure HTWorker where
  pmap : NoVoHT
  pqueue : List ZPack := []

namespace HTWorker

section Ops

variable (hash : Str → Nat) (resizeDue : Int → Nat → Bool) (serialize : ZPack → Str)

def insertShared (pmap : NoVoHT) (zpack : ZPack) : NoVoHT × Str :=
  let key := zpack.key.getD []
  if key.isEmpty then (pmap, recEmptyKey)
  else
    let (pmap, ret) := pmap.put hash resizeDue key (zpackToStr zpack)
    (pmap, if ret ≠ 0 then recNonexistKey else recSucc)

def lookupShared (pmap : NoVoHT) (zpack : ZPack) : Str :=
  let key := zpack.key.getD []
  if key.isEmpty then recEmptyKey
  else
    match pmap.get hash key with
    | none => recNonexistKey ++ "Empty".toList
    | some ret => recSucc ++ ret

/-- `SerializeAsString` of the generated message class is the parameter `serialize`. -/
def appendShared (pmap : NoVoHT) (zpack : ZPack) : NoVoHT × Str :=
  let key := zpack.key.getD []
  if key.isEmpty then (pmap, recEmptyKey)
  else
    let (pmap, ret) := pmap.append hash key (serialize zpack)
    (pmap, if ret ≠ 0 then recNonexistKey else recSucc)

def removeShared (pmap : NoVoHT) (zpack : ZPack) : NoVoHT × Str :=
  let key := zpack.key.getD []
  if key.isEmpty then (pmap, recEmptyKey)
  else
    let (pmap, ret) := pmap.remove hash key
    (pmap, if ret ≠ 0 then recNonexistKey else recSucc)

def eraseStatusCode (val : Str) : Str := val.drop 3

def compareSwapInternal (pmap : NoVoHT) (zpack : ZPack) : NoVoHT × Str :=
  let lresult := eraseStatusCode (lookupShared hash pmap zpack)
  let lzpack := strToZpack lresult
  if zpack.val.getD [] = lzpack.val.getD [] then
    insertShared hash resizeDue pmap { lzpack with val := some (zpack.newval.getD []) }
  else (pmap, recSrvExp)

/-- No reply is sent for an empty key. -/
def compareSwap (pmap : NoVoHT) (zpack : ZPack) : NoVoHT × Option Str :=
  if (zpack.key.getD []).isEmpty then (pmap, none)
  else
    let (pmap, result) := compareSwapInternal hash resizeDue pmap zpack
    (pmap, some (result ++ eraseStatusCode (lookupShared hash pmap zpack)))

/-- One poll for a callback that waits for a value. `found` is what `get` returns. It walks the
chain without the lock of the map, while another thread may change it. -/
def stateChangeCallbackInternal (found : Option Str) (zpack : ZPack) : Str :=
  let key := zpack.key.getD []
  if key.isEmpty then recEmptyKey
  else
    match found with
    | none => recNonexistKey
    | some ret =>
      if zpack.val.getD [] = (strToZpack ret).val.getD [] then recSucc else recSccbPollTry

/-- Serves a request. The second component is the text sent back; a callback is queued and an
unknown operation is not answered. -/
def run (w : HTWorker) (buf : Str) : HTWorker × Option Str :=
  let zpack := strToZpack buf
  let opcode := zpack.opcode.getD []
  if opcode = opcLookup then (w, some (lookupShared hash w.pmap zpack))
  else if opcode = opcInsert then
    let (pmap, result) := insertShared hash resizeDue w.pmap zpack
    ({ w with pmap }, some result)
  else if opcode = opcAppend then
    let (pmap, result) := appendShared hash serialize w.pmap zpack
    ({ w with pmap }, some result)
  else if opcode = opcCmpswp then
    let (pmap, result) := compareSwap hash resizeDue w.pmap zpack
    ({ w with pmap }, result)
  else if opcode = opcRemove then
    let (pmap, result) := removeShared hash w.pmap zpack
    ({ w with pmap }, some result)
  else if opcode = opcStchgcb then ({ w with pqueue := w.pqueue ++ [zpack] }, none)
  else (w, none)

end Ops

section Dispatch

variable {hash : Str → Nat} {resizeDue : Int → Nat → Bool} {serialize : ZPack → Str}
  {buf : Str} {zpack : ZPack}

theorem run_lookup (w : HTWorker) (hz : strToZpack buf = zpack)
    (ho : zpack.opcode = some opcLookup) :
    w.run hash resizeDue serialize buf = (w, some (lookupShared hash w.pmap zpack)) := by
  simp only [run, hz, ho, Option.getD_some, if_true]

theorem run_insert (w : HTWorker) (hz : strToZpack buf = zpack)
    (ho : zpack.opcode = some opcInsert) :
    w.run hash resizeDue serialize buf =
      ({ w with pmap := (insertShared hash resizeDue w.pmap zpack).1 },
        some (insertShared hash resizeDue w.pmap zpack).2) := by
  have hne : opcInsert ≠ opcLookup := by decide
  simp only [run, hz, ho, Option.getD_some, hne, if_false, if_true]

theorem run_append (w : HTWorker) (hz : strToZpack buf = zpack)
    (ho : zpack.opcode = some opcAppend) :
    w.run hash resizeDue serialize buf =
      ({ w with pmap := (appendShared hash serialize w.pmap zpack).1 },
        some (appendShared hash serialize w.pmap zpack).2) := by
  have hne : opcAppend ≠ opcLookup ∧ opcAppend ≠ opcInsert := by decide
  simp only [run, hz, ho, Option.getD_some, hne, if_false, if_true]

theorem run_cmpswp (w : HTWorker) (hz : strToZpack buf = zpack)
    (ho : zpack.opcode = some opcCmpswp) :
    w.run hash resizeDue serialize buf =
      ({ w with pmap := (compareSwap hash resizeDue w.pmap zpack).1 },
        (compareSwap hash resizeDue w.pmap zpack).2) := by
  have hne : opcCmpswp ≠ opcLookup ∧ opcCmpswp ≠ opcInsert ∧ opcCmpswp ≠ opcAppend := by decide
  simp only [run, hz, ho, Option.getD_some, hne, if_false, if_true]

theorem run_remove (w : HTWorker) (hz : strToZpack buf = zpack)
    (ho : zpack.opcode = some opcRemove) :
    w.run hash resizeDue serialize buf =
      ({ w with pmap := (removeShared hash w.pmap zpack).1 },
        some (removeShared hash w.pmap zpack).2) := by
  have hne : opcRemove ≠ opcLookup ∧ opcRemove ≠ opcInsert ∧ opcRemove ≠ opcAppend ∧
      opcRemove ≠ opcCmpswp := by decide
  simp only [run, hz, ho, Option.getD_some, hne, if_false, if_true]

theorem run_unknown (w : HTWorker) (hz : strToZpack buf = zpack)
    (ho : zpack.opcode.getD [] ∉ opcodes) : w.run hash resizeDue serialize buf = (w, none) := by
  simp only [opcodes, List.mem_cons, List.not_mem_nil, or_false, not_or] at ho
  obtain ⟨h₁, h₂, h₃, h₄, h₅, h₆⟩ := ho
  simp only [run, hz, h₁, h₂, h₃, h₄, h₅, h₆, if_false]

end Dispatch

end HTWorker

end MatrixZht
