import MatrixZht.Lib.File
import MatrixZht.Transfer
import MatrixZht.Zht.Novoht

namespace MatrixZht
open Lib

/-- `fprintf(f, "%s\t%s\t", ..)` of a key and a value. -/
def recordText (p : KVPair) : Str := terminate ['\t'] [cstr p.key, cstr p.val]

def fileText (l : List KVPair) : Str := l.flatMap recordText

def pairUp : List Str → List KVPair
  | key :: val :: rest => ⟨key, val⟩ :: pairUp rest
  | _ => []

/-- The records of a file: two fields each, and a tab after every field. -/
def records (content : Str) : List KVPair := pairUp (content.splitOnP (· == '\t'))

/-- A record is live until its first byte is overwritten with `~`. -/
def KVPair.Live (r : KVPair) : Prop := r.key.head? ≠ some '~'

instance : DecidablePred KVPair.Live := fun _ => inferInstanceAs (Decidable (¬_ = _))

/-- The live records of a file, in file order. -/
def liveRecords (content : Str) : List KVPair := (records content).filter fun r => r.Live

/-- A text that a file keeps as one field. -/
structure IsFileField (s : Str) : Prop where
  ne_nil : s ≠ []
  no_tab : '\t' ∉ s
  no_nul : '\x00' ∉ s

instance (s : Str) : Decidable (IsFileField s) :=
  decidable_of_iff (s ≠ [] ∧ '\t' ∉ s ∧ '\x00' ∉ s)
    ⟨fun h => ⟨h.1, h.2.1, h.2.2⟩, fun h => ⟨h.ne_nil, h.no_tab, h.no_nul⟩⟩

/-- What may be stored: both texts are fields, and the key does not look marked. -/
structure KVPair.Storable (p : KVPair) : Prop where
  key : IsFileField p.key
  val : IsFileField p.val
  live : p.Live

instance (p : KVPair) : Decidable p.Storable :=
  decidable_of_iff (IsFileField p.key ∧ IsFileField p.val ∧ p.Live)
    ⟨fun h => ⟨h.1, h.2.1, h.2.2⟩, fun h => ⟨h.key, h.val, h.live⟩⟩

section Records

variable {r : KVPair} {l l' : List KVPair}

theorem recordText_eq (hk : IsFileField r.key) (hv : IsFileField r.val) :
    recordText r = r.key ++ '\t' :: (r.val ++ ['\t']) := by
  rw [recordText, cstr_eq hk.no_nul, cstr_eq hv.no_nul]
  simp

theorem fileText_append (l l' : List KVPair) : fileText (l ++ l') = fileText l ++ fileText l' := by
  rw [fileText, fileText, fileText, List.flatMap_append]

theorem fileText_cons (r : KVPair) (l : List KVPair) :
    fileText (r :: l) = recordText r ++ fileText l := List.flatMap_cons

theorem splitOnP_field {s : Str} (hs : IsFileField s) (rest : Str) :
    (s ++ '\t' :: rest).splitOnP (· == '\t') = s :: rest.splitOnP (· == '\t') := by
  have hclean : ∀ c ∈ s, (c == '\t') = false := by
    intro c hc
    have hne : c ≠ '\t' := fun he => hs.no_tab (he ▸ hc)
    simp [hne]
  rw [List.splitOnP_append_cons s rest (by simp), List.splitOnP_eq_singleton hclean]
  rfl

theorem records_fileText (h : ∀ r ∈ l, IsFileField r.key ∧ IsFileField r.val) :
    records (fileText l) = l := by
  induction l with
  | nil => rfl
  | cons r l ih =>
    obtain ⟨⟨hk, hv⟩, hl⟩ := List.forall_mem_cons.1 h
    have hrest : pairUp ((fileText l).splitOnP (· == '\t')) = l := ih hl
    rw [fileText_cons, recordText_eq hk hv, records]
    simp only [List.append_assoc, List.cons_append, List.nil_append]
    rw [splitOnP_field hk, splitOnP_field hv, pairUp, hrest]

theorem liveRecords_fileText (h : ∀ r ∈ l, r.Storable) : liveRecords (fileText l) = l := by
  rw [liveRecords, records_fileText fun r hr => ⟨(h r hr).key, (h r hr).val⟩,
    List.filter_eq_self]
  intro r hr
  simpa using (h r hr).live

end Records

/-- A node with the offsets of its records, latest first, and the flag that keeps it out of a
rewrite. -/
structure DbPair extends KVPair where
  positions : List Nat
  diff : Bool
deriving DecidableEq

/-- The hash table with a backing file. `diff` is not set when a node is made, so an operation that
may make one comes with the value found there. -/
structure DbTable where
  size : Nat
  numEl : Int := 0
  kvpairs : Nat → List DbPair := fun _ => []
  magicNumber : Int
  nRem : Int := 0
  rewriting : Bool := false
  dbfile : File Char := {}
  swapFile : File Char := {}

namespace DbTable

def putText (f : File Char) (text : Str) : File Char := f.puts '\x00' text

/-- Appends the record of a node, which forgets the records it had. -/
def write (dbfile : File Char) (p : DbPair) : DbPair × File Char :=
  ({ p with positions := [dbfile.seekEnd.pos] }, putText dbfile.seekEnd (recordText p.toKVPair))

def writeAppend (dbfile : File Char) (p : DbPair) (appendString : Str) : DbPair × File Char :=
  ({ p with positions := dbfile.seekEnd.pos :: p.positions },
    putText dbfile.seekEnd (recordText ⟨p.key, appendString⟩))

def logrm (dbfile : File Char) (key : Str) (plist : List Nat) : File Char :=
  putText dbfile.seekEnd
    ('~' :: (cstr key ++ '\t' :: (plist.flatMap (fun pos => decimal pos ++ [',']) ++ ['\t'])))

def mark (dbfile : File Char) (plist : List Nat) : File Char := dbfile.putAt '\x00' '~' plist

/-- Hands the file over to the rewriting thread and opens the log that takes its place. -/
def writeFile (t : DbTable) : DbTable :=
  if t.rewriting then { t with nRem := 0 }
  else
    { t with
      rewriting := true
      swapFile := t.dbfile
      dbfile := { readable := false }
      nRem := 0 }

/-- The chain with the node of the same key replaced. -/
def setNode (node : DbPair) : List DbPair → List DbPair
  | [] => []
  | cur :: next => if node.key = cur.key then node :: next else cur :: setNode node next

def findNode (k : Str) (chain : List DbPair) : Option DbPair := chain.find? fun cur => k = cur.key

/-- The nodes behind the current one, with the first of key `k` unlinked. -/
def unlinkNext (k : Str) : List DbPair → Option (List DbPair)
  | [] => none
  | r :: rest => if k = r.key then some rest else (unlinkNext k rest).map (r :: ·)

/-- Ends a `remove` that found the key: the records given up are those of the first node of the
bucket, wherever the key was found. -/
def unlink (t : DbTable) (loc : Nat) (chain : List DbPair) (k : Str) (toRem : List Nat) : DbTable :=
  let dbfile := if t.rewriting then logrm t.dbfile k toRem else mark t.dbfile toRem
  let t := { t with
    kvpairs := Function.update t.kvpairs loc chain
    numEl := t.numEl - 1
    nRem := t.nRem + 1
    dbfile }
  if t.nRem = t.magicNumber then t.writeFile else t

section Ops

variable (hash : Str → Nat) (resizeDue : Int → Nat → Bool)

def relink (ns : Nat) (kvpairs : Nat → List DbPair) (cur : DbPair) : Nat → List DbPair :=
  let pos := hash cur.key % ns
  Function.update kvpairs pos (cur :: kvpairs pos)

def resize (t : DbTable) (ns : Nat) : DbTable :=
  { t with
    size := ns
    numEl := 0
    kvpairs := (List.range t.size).foldl
      (fun kvpairs i => (t.kvpairs i).foldl (relink hash ns) kvpairs) fun _ => [] }

/-- The node found gives its records up, and its new record is written at the end of the file. -/
def put (t : DbTable) (k v : Str) (diff : Bool) : DbTable × Int :=
  let t := if resizeDue t.numEl t.size then t.resize hash (t.size * 2) else t
  let slot := hash k % t.size
  match findNode k (t.kvpairs slot) with
  | none =>
    let (add, dbfile) := write t.dbfile { key := k, val := v, positions := [], diff }
    ({ t with
      kvpairs := Function.update t.kvpairs slot (t.kvpairs slot ++ [add])
      numEl := t.numEl + 1
      dbfile }, 0)
  | some cur =>
    let (cur, dbfile) := write (mark t.dbfile cur.positions) { cur with val := v }
    ({ t with
      kvpairs := Function.update t.kvpairs slot (setNode cur (t.kvpairs slot))
      dbfile }, 0)

def get (t : DbTable) (k : Str) : Option Str :=
  if k.isEmpty then none else (findNode k (t.kvpairs (hash k % t.size))).map fun cur => cur.val

def remove (t : DbTable) (k : Str) : DbTable × Int :=
  let loc := hash k % t.size
  match t.kvpairs loc with
  | [] => (t, -1)
  | cur :: next =>
    if k = cur.key then (t.unlink loc next k cur.positions, 0)
    else
      match unlinkNext k next with
      | none => (t, -1)
      | some next => (t.unlink loc (cur :: next) k cur.positions, 0)

def append (t : DbTable) (k aval : Str) (diff : Bool) : DbTable × Int :=
  let loc := hash k % t.size
  match findNode k (t.kvpairs loc) with
  | some cur =>
    let (cur, dbfile) := writeAppend t.dbfile { cur with val := cur.val ++ ':' :: aval } aval
    ({ t with kvpairs := Function.update t.kvpairs loc (setNode cur (t.kvpairs loc)), dbfile }, 0)
  | none =>
    let (add, dbfile) := write t.dbfile { key := k, val := aval, positions := [], diff }
    ({ t with
      kvpairs := Function.update t.kvpairs loc (add :: t.kvpairs loc)
      numEl := t.numEl + 1
      dbfile }, 0)

/-- An operation, with the `diff` of the node it may make. -/
def step (t : DbTable) (op : NoVoHT.Op × Bool) : DbTable × NoVoHT.Answer :=
  match op with
  | (.put k v, diff) =>
    ((t.put hash resizeDue k v diff).1, .status (t.put hash resizeDue k v diff).2)
  | (.append k aval, diff) => ((t.append hash k aval diff).1, .status (t.append hash k aval diff).2)
  | (.remove k, _) => ((t.remove hash k).1, .status (t.remove hash k).2)
  | (.get k, _) => (t, .value (t.get hash k))

/-- The table after a sequence of operations. -/
def run (t : DbTable) (ops : List (NoVoHT.Op × Bool)) : DbTable :=
  ops.foldl (fun t op => (t.step hash resizeDue op).1) t

/-- How `readTabString` ends without a tab. -/
def unterminated (buffer : Str) : Option Str := if buffer.isEmpty then none else some buffer

/-- The loop of `readTabString`. The byte read is stored in a `char`, so the byte `0xFF` ends the
text as the end of the file does. -/
def readTabLoop : Nat → File Char → Str → Option Str × File Char
  | 0, file, buffer => (unterminated buffer, file.getc.2)
  | n + 1, file, buffer =>
    match file.getc with
    | (none, file) => (unterminated buffer, file)
    | (some t, file) =>
      if t = '\xff' then (unterminated buffer, file)
      else if t = '\t' then (some buffer, file)
      else readTabLoop n file (buffer ++ [t])

/-- `readTabString`, where `none` is `NULL`. Its callers take the buffer as a C string. -/
def readTabString (file : File Char) : Option Str × File Char :=
  let (buffer, file) := readTabLoop 300 file []
  (buffer.map cstr, file)

/-- The loop of `readFile`, where `diff` is what a new node of a key has there. -/
def readLoop (diff : Str → Bool) : Nat → DbTable → Option DbTable
  | 0, _ => none
  | fuel + 1, t =>
    match readTabString t.dbfile with
    | (none, dbfile) => some { t with dbfile }
    | (some key, dbfile) =>
      match readTabString dbfile with
      | (none, dbfile) => some { t with dbfile }
      | (some val, dbfile) =>
        let t := { t with dbfile }
        readLoop diff fuel
          (if key.head? ≠ some '~' then (t.put hash resizeDue key val (diff key)).1 else t)

def readFile (diff : Str → Bool) (t : DbTable) : Option DbTable :=
  (readLoop hash resizeDue diff (t.dbfile.content.length + 1) t).map writeFile

/-- `NoVoHT::initialize`, over a file with the given content. -/
def initializeTable (diff : Str → Bool) (file : Str) (initSize : Nat) (gcnum : Int) :
    Option DbTable :=
  readFile hash resizeDue diff
    { size := initSize, magicNumber := gcnum, dbfile := { content := file } }

/-- A node that a rewrite writes. -/
def Written (cur : DbPair) : Prop := cur.key ≠ [] ∧ cur.val ≠ [] ∧ cur.diff = false

instance : DecidablePred Written := fun _ => inferInstanceAs (Decidable (_ ∧ _ ∧ _))

def rewriteChain : List DbPair → File Char → List DbPair × File Char
  | [], swapFile => ([], swapFile)
  | cur :: next, swapFile =>
    if Written cur then
      let (next, rest) := rewriteChain next (putText swapFile (recordText cur.toKVPair))
      ({ cur with positions := [swapFile.pos] } :: next, rest)
    else
      let (next, rest) := rewriteChain next swapFile
      (cur :: next, rest)

/-- What `rewriteFile` does before it merges: the file is emptied and every node is written. -/
def rewriteScan (t : DbTable) : DbTable :=
  let (kvpairs, swapFile) := (List.range t.size).foldl
    (fun (kvpairs, swapFile) i =>
      let (chain, swapFile) := rewriteChain (kvpairs i) swapFile
      (Function.update kvpairs i chain, swapFile))
    (t.kvpairs, t.swapFile.rewind.truncate)
  { t with kvpairs, swapFile }

/-- Marks the records of a removed key at the logged offsets. -/
def mergeMarks (key : Str) : List Str → File Char → File Char
  | [], swapFile => swapFile
  | pos :: rest, swapFile =>
    let (test, swapFile) := readTabString (swapFile.seek (strToInt pos).toNat)
    mergeMarks key rest <|
      if test.getD [] = key then (swapFile.seek (strToInt pos).toNat).putc '\x00' '~'
      else swapFile

/-- Writes the present value of a key that the log mentions. -/
def mergeNode (t : DbTable) (s : Str) : DbTable :=
  let loc := hash s % t.size
  match findNode s (t.kvpairs loc) with
  | none => { t with swapFile := t.swapFile.seekEnd }
  | some p =>
    let (p, swapFile) := write t.swapFile p
    { t with
      kvpairs := Function.update t.kvpairs loc (setNode { p with diff := false } (t.kvpairs loc))
      swapFile }

def mergeLoop : Nat → DbTable → Option DbTable
  | 0, _ => none
  | fuel + 1, t =>
    match readTabString t.dbfile with
    | (none, dbfile) => some { t with dbfile }
    | (some buf, dbfile) =>
      if buf.head? = some '~' then
        let (sec, dbfile) := readTabString dbfile
        mergeLoop fuel { t with
          dbfile
          swapFile := mergeMarks buf.tail (tokens (· == ',') (sec.getD [])) t.swapFile }
      else mergeLoop fuel (mergeNode hash { t with dbfile } buf)

/-- Replays the log that stood in for the file onto the rewritten file, and takes that one back. -/
def merge (t : DbTable) : Option DbTable :=
  (mergeLoop hash (t.dbfile.content.length + 1) { t with dbfile := t.dbfile.rewind }).map
    fun t => { t with dbfile := t.swapFile, rewriting := false }

def rewriteFile (t : DbTable) : Option DbTable := t.rewriteScan.merge hash

end Ops

/-- The table in memory, without the file. -/
def toNoVoHT (t : DbTable) : NoVoHT where
  size := t.size
  numEl := t.numEl
  kvpairs := List.map DbPair.toKVPair ∘ t.kvpairs

section Chain

variable {k v : Str} {c : List DbPair} {cur node : DbPair}

theorem findNode_cons_of_ne (h : k ≠ cur.key) : findNode k (cur :: c) = findNode k c := by
  simp [findNode, h]

theorem key_of_findNode (h : findNode k c = some cur) : cur.key = k := by
  have hk := List.find?_some h
  simpa [eq_comm] using hk

theorem mem_of_findNode (h : findNode k c = some cur) : cur ∈ c := List.mem_of_find?_eq_some h

theorem findNode_eq_none : findNode k c = none ↔ ∀ p ∈ c, p.key ≠ k := by
  rw [findNode, List.find?_eq_none]
  simp [eq_comm]

theorem map_setNode_cons_of_ne (hn : node.key = k) (h : k ≠ cur.key) :
    (setNode node (cur :: c)).map DbPair.toKVPair =
      cur.toKVPair :: (setNode node c).map DbPair.toKVPair := by
  rw [setNode, if_neg (hn ▸ h), List.map_cons]

theorem putChain_of_findNode (h : findNode k c = some cur) (hn : node.toKVPair = ⟨k, v⟩) :
    NoVoHT.putChain k v (c.map DbPair.toKVPair) =
      ((setNode node c).map DbPair.toKVPair, false) := by
  have hnk : node.key = k := congrArg KVPair.key hn
  induction c with
  | nil => cases h
  | cons p c ih =>
    by_cases hk : k = p.key
    · have hput : NoVoHT.putChain k v ((p :: c).map DbPair.toKVPair) =
          (⟨p.key, v⟩ :: c.map DbPair.toKVPair, false) := by
        cases c <;> simp [NoVoHT.putChain, hk]
      rw [hput, setNode, if_pos (hnk.trans hk), List.map_cons, hn, hk]
    · rw [findNode_cons_of_ne hk] at h
      rw [map_setNode_cons_of_ne hnk hk]
      cases c with
      | nil => cases h
      | cons q c =>
        have ih := ih h
        rw [List.map_cons] at ih
        rw [List.map_cons, List.map_cons, NoVoHT.putChain, if_neg hk, ih]

theorem putChain_of_findNode_none (h : findNode k c = none) (v : Str) :
    NoVoHT.putChain k v (c.map DbPair.toKVPair) = (c.map DbPair.toKVPair ++ [⟨k, v⟩], true) := by
  induction c with
  | nil => rfl
  | cons p c ih =>
    obtain ⟨hp, hc⟩ := List.forall_mem_cons.1 (findNode_eq_none.1 h)
    have ih := ih (findNode_eq_none.2 hc)
    cases c with
    | nil => simp [NoVoHT.putChain, Ne.symm hp]
    | cons q c =>
      rw [List.map_cons] at ih
      rw [List.map_cons, List.map_cons, NoVoHT.putChain, if_neg (Ne.symm hp), ih]
      rfl

theorem appendChain_of_findNode (h : findNode k c = some cur)
    (hn : node.toKVPair = ⟨k, cur.val ++ ':' :: v⟩) :
    NoVoHT.appendChain k v (c.map DbPair.toKVPair) =
      some ((setNode node c).map DbPair.toKVPair) := by
  have hnk : node.key = k := congrArg KVPair.key hn
  induction c with
  | nil => cases h
  | cons p c ih =>
    rw [List.map_cons, NoVoHT.appendChain]
    by_cases hk : k = p.key
    · have hp : p = cur := by
        simpa [findNode, hk] using h
      rw [if_pos hk, setNode, if_pos (hnk.trans hk), List.map_cons, hn, hk, hp]
    · rw [findNode_cons_of_ne hk] at h
      rw [map_setNode_cons_of_ne hnk hk, if_neg hk, ih h]
      rfl

theorem appendChain_of_findNode_none (h : findNode k c = none) (v : Str) :
    NoVoHT.appendChain k v (c.map DbPair.toKVPair) = none := by
  rw [NoVoHT.appendChain_eq_none]
  intro p hp
  obtain ⟨q, hq, rfl⟩ := List.mem_map.1 hp
  exact findNode_eq_none.1 h q hq

theorem removeNext_map (k : Str) (c : List DbPair) :
    NoVoHT.removeNext k (c.map DbPair.toKVPair) =
      (unlinkNext k c).map (List.map DbPair.toKVPair) := by
  induction c with
  | nil => rfl
  | cons r rest ih =>
    rw [List.map_cons, NoVoHT.removeNext, unlinkNext, ih]
    split
    · rfl
    · cases unlinkNext k rest <;> rfl

theorem getChain_map (k : Str) (c : List DbPair) :
    NoVoHT.getChain k (c.map DbPair.toKVPair) =
      if k.isEmpty then none else (findNode k c).map fun cur => cur.val := by
  induction c with
  | nil => simp [NoVoHT.getChain, findNode]
  | cons cur next ih =>
    rw [List.map_cons, NoVoHT.getChain, ih]
    by_cases hk : k = cur.key
    · simp [findNode, hk]
    · rw [if_neg hk, findNode_cons_of_ne hk]
      split <;> rfl

end Chain

section Erasure

variable {hash : Str → Nat} {resizeDue : Int → Nat → Bool} (t : DbTable)

@[simp] theorem writeFile_toNoVoHT : t.writeFile.toNoVoHT = t.toNoVoHT := by
  unfold writeFile
  split <;> rfl

theorem unlink_toNoVoHT (loc : Nat) (chain : List DbPair) (k : Str) (toRem : List Nat) :
    (t.unlink loc chain k toRem).toNoVoHT =
      t.toNoVoHT.setBucket loc (chain.map DbPair.toKVPair) (t.numEl - 1) := by
  have hbucket := Function.comp_update (List.map DbPair.toKVPair) t.kvpairs loc chain
  unfold unlink
  dsimp only
  split
  · rw [writeFile_toNoVoHT, toNoVoHT, hbucket]
    rfl
  · rw [toNoVoHT, hbucket]
    rfl

theorem resize_toNoVoHT (ns : Nat) :
    (t.resize hash ns).toNoVoHT = t.toNoVoHT.resize hash ns := by
  have hlink : ∀ kvpairs cur, List.map DbPair.toKVPair ∘ relink hash ns kvpairs cur =
      NoVoHT.relink hash ns (List.map DbPair.toKVPair ∘ kvpairs) cur.toKVPair := by
    intro kvpairs cur
    rw [relink, Function.comp_update]
    rfl
  have hchain : ∀ (c : List DbPair) kvpairs,
      List.map DbPair.toKVPair ∘ c.foldl (relink hash ns) kvpairs =
        (c.map DbPair.toKVPair).foldl (NoVoHT.relink hash ns)
          (List.map DbPair.toKVPair ∘ kvpairs) := by
    intro c
    induction c with
    | nil => exact fun _ => rfl
    | cons cur c ih =>
      intro kvpairs
      rw [List.foldl_cons, ih, hlink, List.map_cons, List.foldl_cons]
  have hrange : ∀ (l : List Nat) kvpairs,
      List.map DbPair.toKVPair ∘
          l.foldl (fun kvpairs i => (t.kvpairs i).foldl (relink hash ns) kvpairs) kvpairs =
        l.foldl (fun kvpairs i => (t.toNoVoHT.kvpairs i).foldl (NoVoHT.relink hash ns) kvpairs)
          (List.map DbPair.toKVPair ∘ kvpairs) := by
    intro l
    induction l with
    | nil => exact fun _ => rfl
    | cons i l ih =>
      intro kvpairs
      rw [List.foldl_cons, ih, hchain, List.foldl_cons]
      rfl
  simp only [toNoVoHT, resize, NoVoHT.resize, hrange]
  rfl

theorem put_toNoVoHT (k v : Str) (diff : Bool) :
    (t.put hash resizeDue k v diff).1.toNoVoHT = (t.toNoVoHT.put hash resizeDue k v).1 := by
  obtain ⟨u, hu, hun⟩ : ∃ u : DbTable,
      (if resizeDue t.numEl t.size then t.resize hash (t.size * 2) else t) = u ∧
        (if resizeDue t.numEl t.size then t.toNoVoHT.resize hash (t.size * 2) else t.toNoVoHT) =
          u.toNoVoHT := by
    refine ⟨_, rfl, ?_⟩
    split
    · rw [resize_toNoVoHT]
    · rfl
  have hnum : t.toNoVoHT.numEl = t.numEl := rfl
  have hsize : t.toNoVoHT.size = t.size := rfl
  have hchain : u.toNoVoHT.kvpairs (hash k % u.size) =
      (u.kvpairs (hash k % u.size)).map DbPair.toKVPair := rfl
  have hus : u.toNoVoHT.size = u.size := rfl
  simp only [put, NoVoHT.put, hu, hnum, hsize, hun, hus, hchain]
  cases h : findNode k (u.kvpairs (hash k % u.size)) with
  | none =>
    rw [putChain_of_findNode_none h]
    simp only [toNoVoHT, Function.comp_update, List.map_append]
    rfl
  | some cur =>
    have hnode : (write (mark u.dbfile cur.positions) { cur with val := v }).1.toKVPair =
        ⟨k, v⟩ := by
      rw [← key_of_findNode h]
      rfl
    rw [putChain_of_findNode h hnode]
    simp only [toNoVoHT, Function.comp_update]
    rfl

theorem append_toNoVoHT (k aval : Str) (diff : Bool) :
    (t.append hash k aval diff).1.toNoVoHT = (t.toNoVoHT.append hash k aval).1 := by
  have hchain : t.toNoVoHT.kvpairs (hash k % t.toNoVoHT.size) =
      (t.kvpairs (hash k % t.size)).map DbPair.toKVPair := rfl
  simp only [append, NoVoHT.append, hchain]
  cases h : findNode k (t.kvpairs (hash k % t.size)) with
  | none =>
    rw [appendChain_of_findNode_none h]
    simp only [toNoVoHT, Function.comp_update]
    rfl
  | some cur =>
    have hnode : (writeAppend t.dbfile { cur with val := cur.val ++ ':' :: aval } aval).1.toKVPair =
        ⟨k, cur.val ++ ':' :: aval⟩ := by
      rw [← key_of_findNode h]
      rfl
    rw [appendChain_of_findNode h hnode]
    simp only [toNoVoHT, Function.comp_update]
    rfl

theorem remove_toNoVoHT (k : Str) :
    (t.remove hash k).1.toNoVoHT = (t.toNoVoHT.remove hash k).1 ∧
      (t.remove hash k).2 = (t.toNoVoHT.remove hash k).2 := by
  have hchain : t.toNoVoHT.kvpairs (hash k % t.toNoVoHT.size) =
      (t.kvpairs (hash k % t.size)).map DbPair.toKVPair := rfl
  simp only [remove, NoVoHT.remove, hchain]
  cases t.kvpairs (hash k % t.size) with
  | nil => exact ⟨rfl, rfl⟩
  | cons cur next =>
    dsimp only
    rw [List.map_cons, NoVoHT.removeChain, removeNext_map]
    split
    · exact ⟨unlink_toNoVoHT t .., rfl⟩
    · cases unlinkNext k next with
      | none => exact ⟨rfl, rfl⟩
      | some next => exact ⟨unlink_toNoVoHT t .., rfl⟩

theorem get_toNoVoHT (k : Str) : t.get hash k = t.toNoVoHT.get hash k :=
  (getChain_map k _).symm

/-- In memory, the table with a file does what the table without one does. -/
theorem step_toNoVoHT (op : NoVoHT.Op × Bool) :
    (t.step hash resizeDue op).1.toNoVoHT = (t.toNoVoHT.step hash resizeDue op.1).1 ∧
      (t.step hash resizeDue op).2 = (t.toNoVoHT.step hash resizeDue op.1).2 := by
  obtain ⟨op, diff⟩ := op
  cases op with
  | put k v =>
    have hret : (t.put hash resizeDue k v diff).2 = 0 := by
      unfold put
      dsimp only
      split <;> rfl
    exact ⟨put_toNoVoHT t k v diff, congrArg NoVoHT.Answer.status hret⟩
  | append k aval =>
    have hret : (t.append hash k aval diff).2 = (t.toNoVoHT.append hash k aval).2 := by
      unfold append NoVoHT.append
      dsimp only
      split <;> split <;> rfl
    exact ⟨append_toNoVoHT t k aval diff, congrArg NoVoHT.Answer.status hret⟩
  | remove k =>
    obtain ⟨htable, hret⟩ := @remove_toNoVoHT hash t k
    exact ⟨htable, congrArg NoVoHT.Answer.status hret⟩
  | get k => exact ⟨rfl, congrArg NoVoHT.Answer.value (get_toNoVoHT t k)⟩

end Erasure

end DbTable

end MatrixZht
