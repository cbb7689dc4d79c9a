import MatrixZht.Transfer
import MatrixZht.Zht.Server

namespace MatrixZht

/-- A `char`, which is signed, as an unsigned 64-bit number. -/
def charCode (c : Char) : UInt64 :=
  if c.toNat < 128 then UInt64.ofNat c.toNat else UInt64.ofNat c.toNat - 256

def genHash (base : Str) : Nat :=
  let step (hash : UInt64) (c : Char) := charCode c + (hash <<< 6) + (hash <<< 16) - hash
  ((cstr base).foldl step 0).toNat

/-- The macro that would select the 64-bit constants is nowhere defined. -/
def fnvHash (k : Str) : Nat :=
  (k.foldl (fun x c => (x ^^^ charCode c) * 2166136261) (16777619 : UInt64)).toNat

/-- The functions a cluster is built from: the key hash of the clients, and the bucket hash, the
resize rule and the message serialisation of the servers. -/
structure Cluster where
  genHash : Str → Nat
  fnvHash : Str → Nat
  resizeDue : Int → Nat → Bool
  serialize : ZPack → Str
  numNode : Nat

/-- The servers of a cluster, by their index in the neighbor list. -/
abbrev Servers := Nat → HTWorker

namespace Cluster

variable (c : Cluster)

/-- The index of the server a message goes to. -/
def getHostEntityByKey (msg : Str) : Nat :=
  c.genHash ((strToZpack msg).key.getD []) % c.numNode

/-- A whole request and its reply. The texts pass through C strings at both ends. -/
def sendrecv (servers : Servers) (msg : Str) : Servers × Option Str :=
  let index := c.getHostEntityByKey msg
  let (w, reply) := (servers index).run c.fnvHash c.resizeDue c.serialize (cstr msg)
  (Function.update servers index w, reply.map cstr)

def requestPack (opcode key val val2 : Str) (lease : Int) : ZPack where
  opcode := some opcode
  replicanum := some 3
  key := some key
  val := some (if val.isEmpty then ['^'] else val)
  valnull := some val.isEmpty
  newval := some (if val2.isEmpty then ['?'] else val2)
  newvalnull := some val2.isEmpty
  lease := some (numToStr lease)

/-- The status text and the result in a reply. -/
def parseReply (srecv : Str) : Str × Str :=
  if srecv.isEmpty then (recSrvExp, []) else (srecv.take 3, srecv.drop 3)

/-- The status text and the result of a request, or `none` when no reply comes. The buffer of
`MSG_MAXSIZE` bytes that the source copies the reply into is left out. -/
def commonOpInternal (servers : Servers) (opcode key val val2 : Str) (lease : Int) :
    Servers × Option (Str × Str) :=
  if key.isEmpty then (servers, some (recEmptyKey, []))
  else
    let (servers, srecv) := c.sendrecv servers (zpackToStr (requestPack opcode key val val2 lease))
    (servers, srecv.map parseReply)

/-- `Const::toInt`, or the status of a client failure. -/
def statusOf (sstatus : Str) : Int := if sstatus.isEmpty then -2 else strToInt sstatus

def commonOp (servers : Servers) (opcode key val val2 : Str) (lease : Int) :
    Servers × Option (Int × Str) :=
  if opcode ∉ opcodes then (servers, some (strToInt recUopc, []))
  else
    let (servers, r) := c.commonOpInternal servers opcode key val val2 lease
    (servers, r.map fun r => (statusOf r.1, r.2))

def extractValue (returnStr : Str) : Str :=
  let zpack := strToZpack returnStr
  if zpack.valnull.getD false then [] else zpack.val.getD []

def lookup (servers : Servers) (key : Str) : Servers × Option (Int × Str) :=
  let (servers, r) := c.commonOp servers opcLookup key [] [] 1
  (servers, r.map fun r => (r.1, extractValue r.2))

def remove (servers : Servers) (key : Str) : Servers × Option Int :=
  let (servers, r) := c.commonOp servers opcRemove key [] [] 1
  (servers, r.map Prod.fst)

def insert (servers : Servers) (key val : Str) : Servers × Option Int :=
  let (servers, r) := c.commonOp servers opcInsert key val [] 1
  (servers, r.map Prod.fst)

def append (servers : Servers) (key val : Str) : Servers × Option Int :=
  let (servers, r) := c.commonOp servers opcAppend key val [] 1
  (servers, r.map Prod.fst)

def compareSwap (servers : Servers) (key seenVal newVal : Str) : Servers × Option (Int × Str) :=
  let (servers, r) := c.commonOp servers opcCmpswp key seenVal newVal 1
  (servers, r.map fun r => (r.1, extractValue r.2))

end Cluster

end MatrixZht
