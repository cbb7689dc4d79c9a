import MatrixZht.Lib.FirstInsert
import MatrixZht.Zht.Client
import MatrixZht.Zht.Texts

namespace MatrixZht
open Lib

/-- A tokenizer, with the source from the start of the next token on. -/
structure StrTokenizer where
  rest : Str
  delim : Str

namespace StrTokenizer

def findNext (source delim : Str) : StrTokenizer := ⟨source.dropWhile (delim.contains ·), delim⟩

def hasMoreTokens (strtok : StrTokenizer) : Bool := !strtok.rest.isEmpty

def nextToken (strtok : StrTokenizer) : Str × StrTokenizer :=
  if !strtok.hasMoreTokens then ([], strtok)
  else (strtok.rest.takeWhile (!strtok.delim.contains ·),
    findNext (strtok.rest.dropWhile (!strtok.delim.contains ·)) strtok.delim)

end StrTokenizer

structure ConfEntry where
  name : Str
  value : Str
deriving DecidableEq

/-- The key of an entry, or `none` when it does not fit the buffer. -/
def ConfEntry.toString (ce : ConfEntry) : Option Str :=
  let result := cstr ce.name ++ ',' :: cstr ce.value
  if result.length < 50 then some result else none

namespace ConfHandler

abbrev ConfMap := Std.TreeMap Str ConfEntry

/-- The entry of a line, or `none` for a line that is skipped. -/
def entryOf (remains : Str) : Option ConfEntry :=
  if remains.isEmpty then none
  else if remains.take 1 = ['#'] then none
  else
    let strtok := StrTokenizer.findNext remains [' ']
    let (one, strtok) := if strtok.hasMoreTokens then strtok.nextToken else ([], strtok)
    let (two, _) := if strtok.hasMoreTokens then strtok.nextToken else ([], strtok)
    if one.isEmpty then none else some ⟨one, two⟩

/-- One turn of the reading loop. -/
def addLine (configMap : ConfMap) (line : Str) : Option ConfMap :=
  match entryOf line with
  | none => some configMap
  | some ce => ce.toString.map fun key => configMap.insertIfNew key ce

/-- The lines of a file. The empty line that `splitOn` adds at the end is skipped anyway. -/
def setParametersInternal (configFile : Str) (configMap : ConfMap) : Option ConfMap :=
  (configFile.splitOn '\n').foldlM addLine configMap

/-- `setNeighborSeeds`, which copies the entries in the order of their keys. -/
def neighborVector (neighborCfg : Str) : Option (List ConfEntry) :=
  (setParametersInternal neighborCfg ∅).map Std.TreeMap.values

end ConfHandler

structure HostEntity where
  host : Str
  port : Int
deriving DecidableEq

/-- `atoi`, by way of `strtol`. -/
def atoi (str : Str) : Int :=
  let s := readSign (str.dropWhile isBlank)
  let n : Int := Nat.ofDigitChars 10 (s.2.takeWhile Char.isDigit) 0
  toInt32 (max (-2 ^ 63) (min (2 ^ 63 - 1) (if s.1 then -n else n)))

def buildHostEntity (host : Str) (port : Int) : HostEntity := ⟨host, port⟩

/-- `none` is the division by the size of an empty vector, or an index out of range. -/
def getHostEntityByKey (neighborVector : List ConfEntry) (msg : Str) : Option HostEntity :=
  let zpack := strToZpack msg
  let hascode := genHash (zpack.key.getD [])
  let nodeSize := neighborVector.length
  if nodeSize = 0 then none
  else
    let index := toInt32 (hascode % nodeSize : Nat)
    if index < 0 then none
    else neighborVector[index.toNat]?.map fun ce => buildHostEntity ce.name (atoi (cstr ce.value))

/-- The host and the port on a line, unless it is blank or a comment. -/
def hostPair (line : Str) : Option (Str × Str) :=
  if line.head? = some '#' then none
  else
    match tokens ([' '].contains ·) line with
    | [] => none
    | host :: rest => some (host, rest.headD [])

def hostPairs (neighborCfg : Str) : List (Str × Str) :=
  (neighborCfg.splitOn '\n').filterMap hostPair

/-- A pair that is written into the buffer and read back as it is. -/
structure IsHostPair (p : Str × Str) : Prop where
  noComma : ',' ∉ p.1 ∧ ',' ∉ p.2
  noNul : '\x00' ∉ p.1 ∧ '\x00' ∉ p.2
  short : p.1.length + p.2.length < 49

section Entries

variable {line neighborCfg neighborCfg' : Str} {p : Str × Str}

namespace StrTokenizer

theorem ite_hasMoreTokens (strtok : StrTokenizer) :
    (if strtok.hasMoreTokens then strtok.nextToken else ([], strtok)) = strtok.nextToken := by
  cases h : strtok.hasMoreTokens <;> simp [nextToken, h]

theorem hasMoreTokens_findNext (source delim : Str) :
    (findNext source delim).hasMoreTokens = !(tokens (delim.contains ·) source).isEmpty := by
  rw [← tokens_dropWhile source, hasMoreTokens, findNext]
  cases hs : source.dropWhile (delim.contains ·) with
  | nil => rfl
  | cons c rest =>
    rw [tokens_cons_of_not_delim (eq_false_of_dropWhile hs)]
    rfl

theorem nextToken_findNext (source delim : Str) :
    (findNext source delim).nextToken.1 = (tokens (delim.contains ·) source).headD [] ∧
      ∃ source', (findNext source delim).nextToken.2 = findNext source' delim ∧
        tokens (delim.contains ·) source' = (tokens (delim.contains ·) source).tail := by
  rw [← tokens_dropWhile source]
  cases hs : source.dropWhile (delim.contains ·) with
  | nil =>
    have hfind : findNext source delim = ⟨[], delim⟩ := by rw [findNext, hs]
    rw [hfind]
    exact ⟨rfl, [], rfl, rfl⟩
  | cons c rest =>
    have hc : delim.contains c = false := eq_false_of_dropWhile hs
    have hfind : findNext source delim = ⟨c :: rest, delim⟩ := by rw [findNext, hs]
    rw [hfind, tokens_cons_of_not_delim hc]
    exact ⟨rfl, _, rfl, rfl⟩

end StrTokenizer

theorem entryOf_eq (line : Str) :
    ConfHandler.entryOf line = (hostPair line).map fun p => ⟨p.1, p.2⟩ := by
  cases line with
  | nil => rfl
  | cons c line =>
    rw [ConfHandler.entryOf, hostPair]
    by_cases hc : c = '#'
    · subst hc
      rfl
    · obtain ⟨hone, source, hrest, htail⟩ := StrTokenizer.nextToken_findNext (c :: line) [' ']
      obtain ⟨htwo, -⟩ := StrTokenizer.nextToken_findNext source [' ']
      have htake : (c :: line).take 1 ≠ ['#'] := by simpa using hc
      have hhead : (c :: line).head? ≠ some '#' := by simpa using hc
      simp only [StrTokenizer.ite_hasMoreTokens, hone, hrest, htwo, htail, if_neg htake,
        if_neg hhead, List.isEmpty_cons, Bool.false_eq_true, if_false]
      cases htok : tokens ([' '].contains ·) (c :: line) with
      | nil => rfl
      | cons host rest =>
        have hne : host.isEmpty = false := by
          have hword := isWord_of_mem_tokens (htok ▸ List.mem_cons_self)
          simpa using hword.1
        simp only [List.headD_cons, List.tail_cons, hne, Bool.false_eq_true, if_false,
          Option.map_some]

theorem IsHostPair.toString_eq (h : IsHostPair p) :
    ConfEntry.toString ⟨p.1, p.2⟩ = some (p.1 ++ ',' :: p.2) := by
  have hshort := h.short
  rw [ConfEntry.toString, cstr_eq h.noNul.1, cstr_eq h.noNul.2]
  refine if_pos ?_
  rw [List.length_append, List.length_cons]
  omega

/-- What the reading of a file inserts. -/
def entryPairs (neighborCfg : Str) : List (Str × ConfEntry) :=
  (hostPairs neighborCfg).map fun p => (p.1 ++ ',' :: p.2, ⟨p.1, p.2⟩)

theorem functional_entryPairs (h : ∀ p ∈ hostPairs neighborCfg, IsHostPair p) :
    Functional (entryPairs neighborCfg) := by
  intro key ce ce' hce hce'
  obtain ⟨p, hp, he⟩ := List.mem_map.1 hce
  obtain ⟨p', hp', he'⟩ := List.mem_map.1 hce'
  obtain ⟨rfl, rfl⟩ := Prod.mk.inj he
  obtain ⟨hkey, rfl⟩ := Prod.mk.inj he'
  obtain ⟨hname, -, hvalue⟩ := (List.append_cons_inj_of_notMem (h p' hp').noComma.1
    (h p' hp').noComma.2).1 hkey
  rw [hname, hvalue]

theorem setParametersInternal_eq (h : ∀ p ∈ hostPairs neighborCfg, IsHostPair p)
    (configMap : ConfHandler.ConfMap) :
    ConfHandler.setParametersInternal neighborCfg configMap =
      some (insertPairs (entryPairs neighborCfg) configMap) := by
  rw [ConfHandler.setParametersInternal, entryPairs]
  unfold hostPairs at h ⊢
  generalize neighborCfg.splitOn '\n' = lines at h ⊢
  induction lines generalizing configMap with
  | nil => rfl
  | cons line lines ih =>
    rw [List.foldlM_cons, ConfHandler.addLine, entryOf_eq]
    cases hp : hostPair line with
    | none =>
      rw [List.filterMap_cons_none hp] at h ⊢
      exact ih configMap h
    | some p =>
      rw [List.filterMap_cons_some hp] at h ⊢
      obtain ⟨hpair, hrest⟩ := List.forall_mem_cons.1 h
      simp only [Option.map_some, hpair.toString_eq]
      exact ih _ hrest

/-- The vector depends on the set of the pairs in the file only. -/
theorem neighborVector_eq (h : ∀ p ∈ hostPairs neighborCfg, IsHostPair p)
    (hsame : ∀ p, p ∈ hostPairs neighborCfg ↔ p ∈ hostPairs neighborCfg') :
    ∃ neighborVector, ConfHandler.neighborVector neighborCfg = some neighborVector ∧
      ConfHandler.neighborVector neighborCfg' = some neighborVector := by
  have h' : ∀ p ∈ hostPairs neighborCfg', IsHostPair p := fun p hp => h p ((hsame p).2 hp)
  have hentries (p : Str × ConfEntry) :
      p ∈ entryPairs neighborCfg ↔ p ∈ entryPairs neighborCfg' := by
    simp only [entryPairs, List.mem_map, hsame]
  have hvalues := (functional_entryPairs h).values_insertPairs_eq hentries
  refine ⟨(insertPairs (entryPairs neighborCfg) ∅).values, ?_, ?_⟩
  · rw [ConfHandler.neighborVector, setParametersInternal_eq h, Option.map_some]
  · rw [ConfHandler.neighborVector, setParametersInternal_eq h', Option.map_some, hvalues]

end Entries

section Requests

variable {opcode opcode' key val val' val2 val2' : Str}

theorem isField_or_placeholder {s : Str} {c : Char} (h : '/' ∉ s) (hc : c ≠ '/') :
    IsField '/' (if s.isEmpty then [c] else s) := by
  rw [isField_iff]
  split
  · simp [hc.symm]
  · next hne => exact ⟨by simpa using hne, h⟩

theorem strToZpack_requestPack_key (ho : opcode ∈ opcodes) (hk : key ≠ [] ∧ '/' ∉ key)
    (hv : '/' ∉ val) (hv2 : '/' ∉ val2) (lease : Int) :
    (strToZpack (zpackToStr (Cluster.requestPack opcode key val val2 lease))).key =
      readField "nokey" id key := by
  have hfields : ∀ w ∈ zpackFields (Cluster.requestPack opcode key val val2 lease),
      IsField '/' w := by
    simp only [zpackFields, Cluster.requestPack, Option.getD_some, Option.map_some,
      List.forall_mem_cons, List.not_mem_nil, false_implies, implies_true, and_true]
    exact ⟨(opcode_isPlain ho).1.isField, isField_iff.2 hk, isField_or_placeholder hv (by decide),
      isField_or_placeholder hv2 (by decide), isField_numToStr lease (by decide) (by decide),
      isField_boolToStr, isField_boolToStr, isField_numToStr 3 (by decide) (by decide)⟩
  exact (strToZpack_cons (tokenize_terminate hfields) (by simp)).2

theorem getHostEntityByKey_congr {msg msg' : Str} (h : (strToZpack msg).key = (strToZpack msg').key)
    (neighborVector : List ConfEntry) :
    getHostEntityByKey neighborVector msg = getHostEntityByKey neighborVector msg' := by
  rw [getHostEntityByKey, getHostEntityByKey, h]

theorem getHostEntityByKey_ne_none {neighborVector : List ConfEntry} (hne : neighborVector ≠ [])
    (hlen : neighborVector.length ≤ 2 ^ 31) (msg : Str) :
    getHostEntityByKey neighborVector msg ≠ none := by
  have hpos : 0 < neighborVector.length := List.length_pos_of_ne_nil hne
  have hmod := Nat.mod_lt (genHash ((strToZpack msg).key.getD [])) hpos
  simp only [getHostEntityByKey]
  generalize genHash ((strToZpack msg).key.getD []) % neighborVector.length = index at hmod
  have hindex : toInt32 index = index := toInt32_eq (by unfold IsInt; omega)
  have hnonneg : ¬ (index : Int) < 0 := by omega
  rw [if_neg (by omega), hindex, if_neg hnonneg, Int.toNat_natCast,
    List.getElem?_eq_getElem hmod]
  exact Option.some_ne_none _

/-- Clients with the same set of neighbors send all requests for a key to the same server. -/
theorem routing_agreement {neighborCfg neighborCfg' : Str}
    (hpairs : ∀ p ∈ hostPairs neighborCfg, IsHostPair p)
    (hsame : ∀ p, p ∈ hostPairs neighborCfg ↔ p ∈ hostPairs neighborCfg') :
    ∃ neighborVector, ConfHandler.neighborVector neighborCfg = some neighborVector ∧
      ConfHandler.neighborVector neighborCfg' = some neighborVector ∧
      ∀ key, key ≠ [] → '/' ∉ key → ∃ host,
        (neighborVector ≠ [] → neighborVector.length ≤ 2 ^ 31 → host ≠ none) ∧
        ∀ opcode ∈ opcodes, ∀ val val2, '/' ∉ val → '/' ∉ val2 → ∀ lease,
          getHostEntityByKey neighborVector
            (zpackToStr (Cluster.requestPack opcode key val val2 lease)) = host := by
  obtain ⟨neighborVector, hvector, hvector'⟩ := neighborVector_eq hpairs hsame
  refine ⟨neighborVector, hvector, hvector', fun key hk hslash => ?_⟩
  refine ⟨getHostEntityByKey neighborVector
    (zpackToStr (Cluster.requestPack opcLookup key [] [] 1)), fun hne hlen =>
      getHostEntityByKey_ne_none hne hlen _, fun opcode ho val val2 hv hv2 lease => ?_⟩
  apply getHostEntityByKey_congr
  rw [strToZpack_requestPack_key ho ⟨hk, hslash⟩ hv hv2,
    strToZpack_requestPack_key (by decide) ⟨hk, hslash⟩ (by decide) (by decide)]

end Requests

instance (p : Str × Str) : Decidable (IsHostPair p) :=
  decidable_of_iff ((',' ∉ p.1 ∧ ',' ∉ p.2) ∧ ('\x00' ∉ p.1 ∧ '\x00' ∉ p.2) ∧
      p.1.length + p.2.length < 49)
    ⟨fun h => ⟨h.1, h.2.1, h.2.2⟩, fun h => ⟨h.noComma, h.noNul, h.short⟩⟩

theorem routing_agreement_two : ∃ neighborVector,
    ConfHandler.neighborVector "a 1\nb 2\n".toList = some neighborVector ∧
      ConfHandler.neighborVector "# c 3\nb   2\n\na 1\nb 2 x".toList = some neighborVector := by
  have hsame : ∀ p, p ∈ hostPairs "a 1\nb 2\n".toList ↔
      p ∈ hostPairs "# c 3\nb   2\n\na 1\nb 2 x".toList := by
    have hleft : hostPairs "a 1\nb 2\n".toList =
        [("a".toList, "1".toList), ("b".toList, "2".toList)] := by decide
    have hright : hostPairs "# c 3\nb   2\n\na 1\nb 2 x".toList =
        [("b".toList, "2".toList), ("a".toList, "1".toList), ("b".toList, "2".toList)] := by decide
    intro p
    rw [hleft, hright]
    simp only [List.mem_cons, List.not_mem_nil, or_false]
    tauto
  obtain ⟨neighborVector, hvector, hvector', -⟩ := routing_agreement (by decide) hsame
  exact ⟨neighborVector, hvector, hvector'⟩

/-- Two hosts that agree up to a NUL take each other's place, so that the order of the lines
matters. -/
theorem not_routing_agreement_nul :
    (∀ p, p ∈ hostPairs "a\x00x 1\na\x00y 1".toList ↔
        p ∈ hostPairs "a\x00y 1\na\x00x 1".toList) ∧
      (∀ p ∈ hostPairs "a\x00x 1\na\x00y 1".toList, (',' ∉ p.1 ∧ ',' ∉ p.2) ∧
        p.1.length + p.2.length < 49) ∧
      ConfHandler.neighborVector "a\x00x 1\na\x00y 1".toList ≠
        ConfHandler.neighborVector "a\x00y 1\na\x00x 1".toList := by
  have hleft : hostPairs "a\x00x 1\na\x00y 1".toList =
      [("a\x00x".toList, "1".toList), ("a\x00y".toList, "1".toList)] := by decide
  have hright : hostPairs "a\x00y 1\na\x00x 1".toList =
      [("a\x00y".toList, "1".toList), ("a\x00x".toList, "1".toList)] := by decide
  refine ⟨fun p => ?_, by decide, by decide⟩
  rw [hleft, hright]
  simp only [List.mem_cons, List.not_mem_nil, or_false]
  tauto

end MatrixZht
