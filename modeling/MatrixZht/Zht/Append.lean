import Mathlib.Data.Countable.Basic
import Mathlib.Logic.Equiv.List
import MatrixZht.Zht.Refinement

namespace MatrixZht
open Lib

/-- The package a server reads from a request with one value. -/
def receivedPack (opcode key val : Str) : ZPack :=
  strToZpack (cstr (zpackToStr (Cluster.requestPack opcode key val [] 1)))

/-- The key a server reads from the requests for a key, which may be any text. -/
def wireKey (key : Str) : Option Str := (receivedPack opcLookup key []).key

/-- What `extract_value` returns for a package. -/
def ZPack.extract (zpack : ZPack) : Str :=
  if zpack.valnull.getD false then [] else zpack.val.getD []

/-- The fields that follow the key in a request. -/
def requestTail (val : Str) : List Str :=
  [if val.isEmpty then ['^'] else val, ['?'], ['1'], boolToStr val.isEmpty, ['1'], ['3']]

section Wire

variable {opcode key val k : Str}

theorem zpackToStr_requestPack (opcode key val : Str) :
    zpackToStr (Cluster.requestPack opcode key val [] 1) =
      (opcode ++ ['/', '/']) ++
        (key ++ (['/', '/'] ++ terminate ['/', '/'] (requestTail val))) := by
  have hlease : numToStr 1 = ['1'] := by decide
  have hreplica : numToStr 3 = ['3'] := by decide
  simp [zpackToStr, zpackFields, Cluster.requestPack, requestTail, hlease, hreplica, boolToStr]

theorem requestTail_plain (hv : val = [] ∨ IsPlain val) : ∀ w ∈ requestTail val, IsPlain w := by
  have hbool (b : Bool) : IsPlain (boolToStr b) := by cases b <;> decide
  simp only [requestTail, List.forall_mem_cons, List.not_mem_nil, false_implies, implies_true,
    and_true]
  exact ⟨isPlain_or_placeholder hv (by decide), by decide, by decide, hbool _, by decide,
    by decide⟩

theorem tokenize_requestTail (hv : val = [] ∨ IsPlain val) :
    tokenize (key ++ (['/', '/'] ++ terminate ['/', '/'] (requestTail val))) ['/', '/'] =
      tokenize key ['/', '/'] ++ requestTail val := by
  have htail : tokens (['/', '/'].contains ·) (terminate ['/', '/'] (requestTail val)) =
      requestTail val :=
    tokens_terminate (fun w hw => (requestTail_plain hv w hw).isField) (by simp) (by simp)
  rw [tokenize_eq_tokens, tokenize_eq_tokens]
  calc tokens (['/', '/'].contains ·)
        (key ++ '/' :: ('/' :: terminate ['/', '/'] (requestTail val)))
      = tokens (['/', '/'].contains ·) key ++
          tokens (['/', '/'].contains ·) ('/' :: terminate ['/', '/'] (requestTail val)) :=
        tokens_append_cons (by simp) _ _
    _ = _ := by rw [tokens_cons_of_delim (by simp), htail]

theorem tokenize_opcode (ho : IsPlain opcode) (rest : Str) :
    tokenize ((opcode ++ ['/', '/']) ++ rest) ['/', '/'] = opcode :: tokenize rest ['/', '/'] := by
  rw [tokenize_eq_tokens, tokenize_eq_tokens, List.append_assoc]
  exact tokens_word_append ho.isField (by simp) (by simp) rest

theorem tokenize_append_of_cons {s k : Str} {fields : List Str}
    (h : tokenize s ['/', '/'] = k :: fields) (hlen : 6 ≤ fields.length) (t : Str) :
    ∃ fields', tokenize (s ++ t) ['/', '/'] = k :: fields' ∧ 6 ≤ fields'.length := by
  rw [tokenize_eq_tokens] at h
  rcases List.eq_nil_or_concat fields with rfl | ⟨ws, w, rfl⟩
  · simp at hlen
  · have hlast : tokens (['/', '/'].contains ·) s = (k :: ws) ++ [w] := by
      rw [h, List.concat_eq_append, List.cons_append]
    obtain ⟨v, rest, hv⟩ := tokens_append_of_last hlast t
    refine ⟨ws ++ (w ++ v) :: rest, ?_, ?_⟩
    · rw [tokenize_eq_tokens, hv, List.cons_append]
    · simp only [List.concat_eq_append, List.length_append, List.length_cons,
        List.length_nil] at hlen ⊢
      omega

/-- The servers read the package without any field from every request for the key. -/
def ReadsNothing (key : Str) : Prop :=
  ∀ opcode val, IsPlain opcode → (val = [] ∨ IsPlain val) → receivedPack opcode key val = {}

/-- The servers and the router read the field `k` as the key of every request for the key. -/
def ReadsKey (key k : Str) : Prop :=
  ∀ opcode val, IsPlain opcode → (val = [] ∨ IsPlain val) →
    (receivedPack opcode key val).opcode = readField "noopcode" id opcode ∧
    (receivedPack opcode key val).key = readField "nokey" id k ∧
    (strToZpack (zpackToStr (Cluster.requestPack opcode key val [] 1))).key =
      readField "nokey" id k

theorem reads_of_nul {s t : Str} (hs : '\x00' ∉ s) :
    ReadsNothing (s ++ '\x00' :: t) ∨ ∃ k, ReadsKey (s ++ '\x00' :: t) k := by
  have hmsg (opcode val : Str) : ∃ rest,
      zpackToStr (Cluster.requestPack opcode (s ++ '\x00' :: t) val [] 1) =
        (opcode ++ ['/', '/']) ++ (s ++ '\x00' :: rest) := by
    refine ⟨t ++ (['/', '/'] ++ terminate ['/', '/'] (requestTail val)), ?_⟩
    rw [zpackToStr_requestPack, List.append_assoc s, List.cons_append]
  have hcut {opcode : Str} (val : Str) (ho : IsPlain opcode) :
      cstr (zpackToStr (Cluster.requestPack opcode (s ++ '\x00' :: t) val [] 1)) =
        (opcode ++ ['/', '/']) ++ s := by
    obtain ⟨rest, hrest⟩ := hmsg opcode val
    have hfree : '\x00' ∉ (opcode ++ ['/', '/']) ++ s := by simp [ho.2.2, hs]
    rw [hrest, ← List.append_assoc, cstr_append_nul hfree]
  by_cases hlen : (tokenize s ['/', '/']).length < 7
  · refine .inl fun opcode val ho _ => ?_
    rw [receivedPack, hcut val ho]
    apply strToZpack_of_short
    rw [tokenize_opcode ho, List.length_cons]
    omega
  · obtain ⟨k, fields, hk⟩ := List.exists_cons_of_length_pos
      (by omega : 0 < (tokenize s ['/', '/']).length)
    have hfields : 6 ≤ fields.length := by
      rw [hk, List.length_cons] at hlen
      omega
    refine .inr ⟨k, fun opcode val ho _ => ?_⟩
    obtain ⟨rest, hrest⟩ := hmsg opcode val
    obtain ⟨fields', hk', hfields'⟩ := tokenize_append_of_cons hk hfields ('\x00' :: rest)
    have hread := strToZpack_cons (hk ▸ tokenize_opcode ho s) hfields
    have hroute := strToZpack_cons (hk' ▸ tokenize_opcode ho _) hfields'
    rw [receivedPack, hcut val ho, hrest]
    exact ⟨hread.1, hread.2, hroute.2⟩

theorem reads_of_no_nul (hkey : '\x00' ∉ key) : ReadsNothing key ∨ ∃ k, ReadsKey key k := by
  have hmsg {opcode val : Str} (ho : IsPlain opcode) (hv : val = [] ∨ IsPlain val) :
      tokenize (zpackToStr (Cluster.requestPack opcode key val [] 1)) ['/', '/'] =
        opcode :: (tokenize key ['/', '/'] ++ requestTail val) := by
    rw [zpackToStr_requestPack, tokenize_opcode ho, tokenize_requestTail hv]
  have hcut {opcode val : Str} (ho : IsPlain opcode) (hv : val = [] ∨ IsPlain val) :
      cstr (zpackToStr (Cluster.requestPack opcode key val [] 1)) =
        zpackToStr (Cluster.requestPack opcode key val [] 1) := by
    apply cstr_eq
    have htail : '\x00' ∉ terminate ['/', '/'] (requestTail val) :=
      not_mem_terminate (by decide) fun w hw => (requestTail_plain hv w hw).2.2
    rw [zpackToStr_requestPack]
    simp [ho.2.2, hkey, htail]
  cases hk : tokenize key ['/', '/'] with
  | nil =>
    refine .inl fun opcode val ho hv => ?_
    rw [receivedPack, hcut ho hv]
    apply strToZpack_of_short
    rw [hmsg ho hv, hk]
    simp [requestTail]
  | cons k ks =>
    refine .inr ⟨k, fun opcode val ho hv => ?_⟩
    have hlen : 6 ≤ (ks ++ requestTail val).length := by simp [requestTail]
    have hread := strToZpack_cons (hk ▸ hmsg ho hv) hlen
    rw [receivedPack, hcut ho hv]
    exact ⟨hread.1, hread.2, hread.2⟩

theorem reads_cases (key : Str) : ReadsNothing key ∨ ∃ k, ReadsKey key k := by
  by_cases hkey : '\x00' ∈ key
  · obtain ⟨s, t, rfl, hs⟩ := List.eq_append_cons_of_mem hkey
    exact reads_of_nul hs
  · exact reads_of_no_nul hkey

/-- What the requests for a key are read as. -/
structure Wired (opcode key val k : Str) : Prop where
  hasOpcode : (receivedPack opcode key val).opcode = some opcode
  hasKey : (receivedPack opcode key val).key = some k
  route : (strToZpack (zpackToStr (Cluster.requestPack opcode key val [] 1))).key = some k

theorem readField_opcode (ho : opcode ∈ opcodes) :
    readField "noopcode" id opcode = some opcode :=
  if_pos (opcode_isPlain ho).2

theorem wired (hk : wireKey key = some k) (ho : opcode ∈ opcodes)
    (hv : val = [] ∨ IsPlain val) : Wired opcode key val k := by
  rcases reads_cases key with hnone | ⟨k', hread⟩
  · rw [wireKey, hnone _ _ (by decide) (.inl rfl)] at hk
    cases hk
  · rw [wireKey, (hread _ _ (by decide) (.inl rfl)).2.1] at hk
    obtain ⟨hopcode, hkey, hroute⟩ := hread opcode val (opcode_isPlain ho).1 hv
    rw [readField_opcode ho] at hopcode
    exact ⟨hopcode, hkey.trans hk, hroute.trans hk⟩

theorem receivedPack_of_none (hk : wireKey key = none) (ho : opcode ∈ opcodes)
    (hv : val = [] ∨ IsPlain val) : (receivedPack opcode key val).key = none ∧
      ((receivedPack opcode key val).opcode = none ∨
        (receivedPack opcode key val).opcode = some opcode) := by
  rcases reads_cases key with hnone | ⟨k', hread⟩
  · rw [hnone opcode val (opcode_isPlain ho).1 hv]
    exact ⟨rfl, .inl rfl⟩
  · rw [wireKey, (hread _ _ (by decide) (.inl rfl)).2.1] at hk
    obtain ⟨hopcode, hkey, _⟩ := hread opcode val (opcode_isPlain ho).1 hv
    rw [readField_opcode ho] at hopcode
    exact ⟨hkey.trans hk, .inr hopcode⟩

theorem nul_not_mem_zpackFields {str : Str} (h : '\x00' ∉ str) :
    ∀ w ∈ zpackFields (strToZpack str), '\x00' ∉ w := by
  have htoken : ∀ w ∈ tokenize str ['/', '/'], '\x00' ∉ w := fun w hw hc =>
    h ((sublist_of_mem_tokens (tokenize_eq_tokens _ _ ▸ hw)).subset hc)
  have hbool (o : Option Bool) {absent : String} (ha : '\x00' ∉ absent.toList) :
      '\x00' ∉ (o.map boolToStr).getD absent.toList := by
    cases o with
    | none => exact ha
    | some b =>
      rw [Option.map_some, Option.getD_some, boolToStr]
      split <;> decide
  have hnum (o : Option Int) {absent : String} (ha : '\x00' ∉ absent.toList) :
      '\x00' ∉ (o.map numToStr).getD absent.toList := by
    cases o with
    | none => exact ha
    | some n => exact not_mem_numToStr n (by decide) (by decide)
  have htext {absent : String} {field : Str} (ha : '\x00' ∉ absent.toList)
      (hf : '\x00' ∉ field) : '\x00' ∉ (readField absent id field).getD absent.toList := by
    unfold readField
    split
    · exact hf
    · exact ha
  unfold strToZpack
  split
  · next hfields =>
    rw [hfields] at htoken
    simp only [List.forall_mem_cons] at htoken
    obtain ⟨h₀, h₁, h₂, h₃, h₄, _⟩ := htoken
    simp only [zpackFields, List.forall_mem_cons, List.not_mem_nil, false_implies, implies_true,
      and_true]
    exact ⟨htext (by decide) h₀, htext (by decide) h₁, htext (by decide) h₂,
      htext (by decide) h₃, htext (by decide) h₄, hbool _ (by decide), hbool _ (by decide),
      hnum _ (by decide)⟩
  · simp only [zpackFields, List.forall_mem_cons, List.not_mem_nil, false_implies, implies_true,
      and_true]
    decide

theorem nul_not_mem_zpackToStr {str : Str} (h : '\x00' ∉ str) :
    '\x00' ∉ zpackToStr (strToZpack str) :=
  not_mem_terminate (by decide) (nul_not_mem_zpackFields h)

theorem isKey_of_wireKey (hk : wireKey key = some k) : IsKey k := by
  obtain ⟨hfield, hne⟩ := (strToZpack_clean _).key k hk
  obtain ⟨hnil, hslash⟩ := isField_iff.1 hfield
  have hget : (receivedPack opcLookup key []).key.getD "nokey".toList = k := by
    rw [← wireKey, hk, Option.getD_some]
  have hmem : k ∈ zpackFields (receivedPack opcLookup key []) := by
    simp only [zpackFields, hget, List.mem_cons, true_or, or_true]
  exact ⟨⟨hnil, hslash, nul_not_mem_zpackFields (nul_not_mem_cstr _) k hmem⟩, hne⟩

end Wire

section Serves

variable {c : Cluster} {servers : Servers} {texts : Store} {key val k : Str}

theorem ne_nil_of_wireKey (hk : wireKey key = some k) : key ≠ [] := by
  rintro rfl
  have hnone : wireKey [] = none := by decide
  simp [hnone] at hk

/-- A request reaches the server of the key that is read from it. -/
theorem commonOp_wired {opcode : Str} (hk : wireKey key = some k) (ho : opcode ∈ opcodes)
    (hv : val = [] ∨ IsPlain val) {w : HTWorker} {reply : Str}
    (hrun : ∀ buf, strToZpack buf = receivedPack opcode key val →
      (servers (c.route k)).run c.fnvHash c.resizeDue c.serialize buf = (w, some reply)) :
    c.commonOp servers opcode key val [] 1 =
      (Function.update servers (c.route k) w, some (readReply (cstr reply))) := by
  have hhost : c.getHostEntityByKey
      (zpackToStr (Cluster.requestPack opcode key val [] 1)) = c.route k := by
    rw [Cluster.getHostEntityByKey, (wired hk ho hv).route]
    rfl
  rw [commonOp_eq_of_host ho (ne_nil_of_wireKey hk) hhost]
  simp only [hrun _ rfl, Option.map_some]

/-- What the lookup of a text yields. -/
def lookedUp : Option Str → Int × Str
  | none => (-92, Cluster.extractValue "Empty".toList)
  | some text => (0, Cluster.extractValue (cstr text))

theorem lookup_wired (h : Serves c servers texts) (hk : wireKey key = some k) :
    (c.lookup servers key).2 = some (lookedUp (texts k)) := by
  obtain ⟨m, hm, hs⟩ := h.holds (c.route k)
  obtain ⟨hopcode, hkey, _⟩ := wired hk (by decide : opcLookup ∈ opcodes) (.inl rfl)
  have hrun := @commonOp_wired c servers key [] k opcLookup hk (by decide) (.inl rfl)
    (servers (c.route k)) (replyText (texts k)) fun buf hdec => by
      rw [HTWorker.run_lookup _ hdec hopcode,
        lookupShared_eq (h.wf _) hm (isKey_of_wireKey hk) hkey, hs k rfl]
  simp only [Cluster.lookup, hrun, Option.map_some]
  cases texts k with
  | none =>
    rw [replyText, cstr_append (by decide), cstr_eq (by decide), readReply_append (by decide)]
    rfl
  | some text =>
    rw [replyText, cstr_append (by decide), readReply_append (by decide)]
    rfl

theorem insert_wired (h : Serves c servers texts) (hk : wireKey key = some k)
    (hv : val = [] ∨ IsPlain val) :
    Serves c (c.insert servers key val).1
      (texts.insert k (zpackToStr (receivedPack opcInsert key val))) := by
  obtain ⟨m, hm, hs⟩ := h.holds (c.route k)
  obtain ⟨hopcode, hkey, _⟩ := wired hk (by decide : opcInsert ∈ opcodes) hv
  obtain ⟨pmap, hins, hwf, hholds⟩ :=
    insertShared_spec c.resizeDue (h.wf (c.route k)) hm (isKey_of_wireKey hk) hkey
  have hrun := @commonOp_wired c servers key val k opcInsert hk (by decide) hv
    { servers (c.route k) with pmap } recSucc fun buf hdec => by
      rw [HTWorker.run_insert _ hdec hopcode, hins]
  have hserves := h.update (w := { servers (c.route k) with pmap }) hwf hs hholds fun k hk =>
    Store.insert_of_ne hk
  rw [Store.insert_self] at hserves
  simp only [Cluster.insert, hrun]
  exact hserves

theorem append_wired (h : Serves c servers texts) (hk : wireKey key = some k)
    (hv : val = [] ∨ IsPlain val) :
    Serves c (c.append servers key val).1 (texts.insert k
      (NoVoHT.joined (texts k) (c.serialize (receivedPack opcAppend key val)))) := by
  obtain ⟨m, hm, hs⟩ := h.holds (c.route k)
  obtain ⟨hopcode, hkey, _⟩ := wired hk (by decide : opcAppend ∈ opcodes) hv
  have hke : k.isEmpty = false := by simpa using (isKey_of_wireKey hk).1.1
  obtain ⟨hret, hwf, hholds⟩ := NoVoHT.append_spec (h.wf (c.route k)) hm k
    (c.serialize (receivedPack opcAppend key val))
  have hrun := @commonOp_wired c servers key val k opcAppend hk (by decide) hv
    { servers (c.route k) with pmap := ((servers (c.route k)).pmap.append c.fnvHash k
        (c.serialize (receivedPack opcAppend key val))).1 } recSucc fun buf hdec => by
      rw [HTWorker.run_append _ hdec hopcode]
      simp only [HTWorker.appendShared, hkey, Option.getD_some, hke, Bool.false_eq_true, if_false,
        hret]
      rfl
  have hserves := h.update (w := { servers (c.route k) with
    pmap := ((servers (c.route k)).pmap.append c.fnvHash k
      (c.serialize (receivedPack opcAppend key val))).1 }) hwf hs hholds fun k hk =>
        Store.insert_of_ne hk
  rw [Store.insert_self, hs k rfl] at hserves
  simp only [Cluster.append, hrun]
  exact hserves

theorem lookup_unread (c : Cluster) (servers : Servers) (hk : wireKey key = none) :
    (c.lookup servers key).2.map Prod.fst ≠ some 0 := by
  obtain ⟨hkey, hopcode⟩ := receivedPack_of_none hk (by decide : opcLookup ∈ opcodes) (.inl rfl)
  by_cases hnil : key = []
  · subst hnil
    show some (Cluster.statusOf recEmptyKey) ≠ some 0
    decide
  · simp only [Cluster.lookup, commonOp_eq_of_host (by decide : opcLookup ∈ opcodes) hnil rfl]
    rcases hopcode with ho | ho
    · have hout : (receivedPack opcLookup key []).opcode.getD [] ∉ opcodes := by
        rw [ho]
        decide
      rw [HTWorker.run_unknown _ rfl hout]
      simp
    · rw [HTWorker.run_lookup _ rfl ho]
      have hreply (pmap : NoVoHT) : HTWorker.lookupShared c.fnvHash pmap
          (receivedPack opcLookup key []) = recEmptyKey := by
        simp only [HTWorker.lookupShared, hkey, Option.getD_none, List.isEmpty_nil, if_true]
      simp only [receivedPack] at hreply
      simp only [hreply, Option.map_some]
      decide

end Serves

/-- How the first value of a key is written. -/
inductive FirstWrite where
  | insert
  | append
deriving DecidableEq

def Cluster.firstWrite (c : Cluster) (servers : Servers) (first : FirstWrite) (key val : Str) :
    Servers :=
  match first with
  | .insert => (c.insert servers key val).1
  | .append => (c.append servers key val).1

def Cluster.appendAll (c : Cluster) (servers : Servers) (key : Str) (vals : List Str) : Servers :=
  vals.foldl (fun servers val => (c.append servers key val).1) servers

/-- `v0:v1:...:vn` -/
def accumulated (val : Str) (vals : List Str) : Str := val ++ vals.flatMap (':' :: ·)

/-- The lookup after all writes yields the values in order. -/
def Accumulates (c : Cluster) (servers : Servers) (first : FirstWrite) (key val : Str)
    (vals : List Str) : Prop :=
  (c.lookup (c.appendAll (c.firstWrite servers first key val) key vals) key).2 =
    some (0, accumulated val vals)

/-- A value that can be one of several joined by `:`. -/
def IsPart (s : Str) : Prop := IsVal s ∧ ':' ∉ s

instance (s : Str) : Decidable (IsPart s) := inferInstanceAs (Decidable (_ ∧ _))

/-- The insert request alone is read with a key and this value. -/
def Carries (key val text : Str) : Prop :=
  wireKey key ≠ none ∧ (receivedPack opcInsert key val).extract = text

section Accumulate

variable {c : Cluster} {servers : Servers} {texts : Store} {key val k text : Str}
  {vals : List Str}

theorem appendAll_wired (h : Serves c servers texts) (hk : wireKey key = some k)
    (hv : ∀ v ∈ vals, v = [] ∨ IsPlain v) (htext : texts k = some text) :
    ∃ texts', Serves c (c.appendAll servers key vals) texts' ∧ texts' k = some
      (text ++ vals.flatMap fun v => ':' :: c.serialize (receivedPack opcAppend key v)) := by
  induction vals generalizing servers texts text with
  | nil => exact ⟨texts, h, by simpa using htext⟩
  | cons v vals ih =>
    obtain ⟨hv, hvals⟩ := List.forall_mem_cons.1 hv
    have happ := append_wired h hk hv
    rw [htext, NoVoHT.joined] at happ
    obtain ⟨texts', hserves, htext'⟩ := ih happ hvals (Store.insert_self ..)
    refine ⟨texts', hserves, ?_⟩
    rw [htext', List.flatMap_cons, List.append_assoc]

theorem lookup_insert_appendAll (h : Serves c servers texts) (hk : wireKey key = some k)
    (hv : ∀ v ∈ val :: vals, v = [] ∨ IsPlain v) :
    (c.lookup (c.appendAll (c.insert servers key val).1 key vals) key).2 =
      some (0, (receivedPack opcInsert key val).extract) := by
  obtain ⟨hval, hvals⟩ := List.forall_mem_cons.1 hv
  obtain ⟨texts', hserves, htext⟩ :=
    appendAll_wired (insert_wired h hk hval) hk hvals (Store.insert_self ..)
  have hnul : '\x00' ∉ zpackToStr (receivedPack opcInsert key val) :=
    nul_not_mem_zpackToStr (nul_not_mem_cstr _)
  rw [lookup_wired hserves hk, htext, lookedUp, cstr_append hnul, Cluster.extractValue,
    receivedPack, strToZpack_zpackToStr_append (strToZpack_clean _)]
  rfl

theorem extractValue_of_slash_free (h : '/' ∉ text) : Cluster.extractValue text = [] := by
  have hclean : ∀ c ∈ text, ['/', '/'].contains c = false := by
    intro c hc
    have hne : c ≠ '/' := fun he => h (he ▸ hc)
    simp [hne]
  have hshort : strToZpack text = {} := by
    apply strToZpack_of_short
    rw [tokenize_eq_tokens, tokens_of_clean hclean]
    split <;> simp
  rw [Cluster.extractValue, hshort]
  rfl

theorem lookup_append_appendAll (h : Serves c servers texts) (hk : wireKey key = some k)
    (hv : ∀ v ∈ val :: vals, v = [] ∨ IsPlain v) (hnone : texts k = none)
    (hfree : ∀ zpack, '/' ∉ c.serialize zpack) :
    (c.lookup (c.appendAll (c.append servers key val).1 key vals) key).2 = some (0, []) := by
  obtain ⟨hval, hvals⟩ := List.forall_mem_cons.1 hv
  have happ := append_wired h hk hval
  rw [hnone, NoVoHT.joined] at happ
  obtain ⟨texts', hserves, htext⟩ := appendAll_wired happ hk hvals (Store.insert_self ..)
  rw [lookup_wired hserves hk, htext, lookedUp, extractValue_of_slash_free]
  intro hc
  have hmem := (List.takeWhile_sublist _).subset hc
  rcases List.mem_append.1 hmem with hmem | hmem
  · exact hfree _ hmem
  · obtain ⟨v, _, hmem⟩ := List.mem_flatMap.1 hmem
    rcases List.mem_cons.1 hmem with hmem | hmem
    · exact absurd hmem (by decide)
    · exact hfree _ hmem

instance countableChar : Countable Char :=
  Function.Injective.countable (f := Char.toNat) fun _ _ h => Char.toNat_inj.1 h

instance : Countable ZPack := by
  refine Function.Injective.countable (f := fun z : ZPack => (z.opcode, z.key, z.val, z.newval,
    z.lease, z.valnull, z.newvalnull, z.replicanum)) fun z z' h => ?_
  cases z
  cases z'
  simp only [Prod.mk.injEq] at h
  simp only [ZPack.mk.injEq]
  exact h

/-- An injective serialisation may be free of delimiters. -/
theorem exists_slash_free_serialize :
    ∃ serialize : ZPack → Str, Function.Injective serialize ∧ ∀ zpack, '/' ∉ serialize zpack := by
  obtain ⟨index, hindex⟩ := Countable.exists_injective_nat ZPack
  refine ⟨fun zpack => numToStr (index zpack), fun z z' h => ?_, fun zpack => ?_⟩
  · exact hindex (Int.ofNat.inj (decimal_injective h))
  · exact not_mem_numToStr _ (by decide) (by decide)

theorem receivedPack_of_isKey (hk : IsKey key) {opcode : Str} (ho : opcode ∈ opcodes)
    (hv : Sendable "noval" val) :
    receivedPack opcode key val = Cluster.requestPack opcode key val [] 1 := by
  have hz := received ho hk hv (.inl rfl)
  rw [receivedPack, cstr_eq hz.nul, hz.read]

theorem accumulated_eq_iff : accumulated val vals = val ↔ vals = [] := by
  rw [accumulated, List.append_right_eq_self]
  cases vals with
  | nil => simp
  | cons v vals => simp only [List.flatMap_cons, List.cons_append, reduceCtorEq]

theorem carries_accumulated_iff (hk : IsKey key) (hval : IsVal val) :
    Carries key val (accumulated val vals) ↔ vals = [] := by
  have hkey : wireKey key ≠ none := by
    rw [wireKey, receivedPack_of_isKey hk (by decide) (.inl rfl)]
    exact Option.some_ne_none key
  have hne : val.isEmpty = false := by simpa using hval.1.1
  have hext : (receivedPack opcInsert key val).extract = val := by
    rw [receivedPack_of_isKey hk (by decide) (.inr hval)]
    simp [ZPack.extract, Cluster.requestPack, hne]
  rw [Carries, hext, eq_comm, accumulated_eq_iff]
  exact and_iff_right hkey

/-- Appended values are never seen by a lookup, and values appended to an absent key are not seen
either: the lookup yields what the insert request carries. -/
theorem accumulates_iff {first : FirstWrite} (h : Serves c servers texts)
    (hvals : ∀ v ∈ val :: vals, IsPart v)
    (habsent : first = .append → ∀ k ∈ wireKey key, texts k = none) :
    ((∀ serialize, Function.Injective serialize →
        Accumulates { c with serialize } servers first key val vals) ↔
      first = .insert ∧ Carries key val (accumulated val vals)) ∧
    (IsKey key → (Carries key val (accumulated val vals) ↔ vals = [])) := by
  have hplain : ∀ v ∈ val :: vals, v = [] ∨ IsPlain v := fun v hv => .inr (hvals v hv).1.1
  have hval : IsVal val := (hvals val List.mem_cons_self).1
  have hserves (serialize : ZPack → Str) : Serves { c with serialize } servers texts :=
    ⟨h.wf, h.holds⟩
  refine ⟨⟨fun hacc => ?_, ?_⟩, fun hk => carries_accumulated_iff hk hval⟩
  · obtain ⟨serialize, hinj, hfree⟩ := exists_slash_free_serialize
    have hlook := hacc serialize hinj
    rw [Accumulates] at hlook
    cases hk : wireKey key with
    | none =>
      have hstatus := congrArg (Option.map Prod.fst) hlook
      exact absurd hstatus (lookup_unread _ _ hk)
    | some k =>
      cases first with
      | insert =>
        rw [Cluster.firstWrite, lookup_insert_appendAll (hserves serialize) hk hplain] at hlook
        refine ⟨rfl, by simp [hk], ?_⟩
        simpa using hlook
      | append =>
        rw [Cluster.firstWrite, lookup_append_appendAll (hserves serialize) hk hplain
          (habsent rfl k hk) hfree] at hlook
        have hnil : accumulated val vals = [] := by simpa using hlook.symm
        exact absurd (List.append_eq_nil_iff.1 hnil).1 hval.1.1
  · rintro ⟨rfl, hkey, hext⟩ serialize _
    obtain ⟨k, hk⟩ := Option.ne_none_iff_exists'.1 hkey
    rw [Accumulates, Cluster.firstWrite, lookup_insert_appendAll (hserves serialize) hk hplain,
      hext]

end Accumulate

theorem accumulates_iff_insert :
    ¬ ∃ serialize, Function.Injective serialize ∧ ¬ Accumulates { pairCluster with serialize }
      freshServers .insert "hello".toList "1.zht".toList [] := by
  rintro ⟨serialize, hinj, hacc⟩
  have hiff := @accumulates_iff pairCluster freshServers (fun _ => none) "hello".toList
    "1.zht".toList [] .insert (serves_fresh pairCluster) (by decide) (fun h => by cases h)
  exact hacc (hiff.1.2 ⟨rfl, (hiff.2 (by decide)).2 rfl⟩ serialize hinj)

/-- An insert and an append, as in the test client: the appended value is not in the result. -/
theorem not_accumulates_append :
    ¬ ∃ serialize, Accumulates { pairCluster with serialize } freshServers .insert
      "hello".toList "1.zht".toList ["2.zht".toList] := by
  rintro ⟨serialize, hacc⟩
  have hk : wireKey "hello".toList = some "hello".toList := by decide
  rw [Accumulates, Cluster.firstWrite, lookup_insert_appendAll
    (serves_fresh { pairCluster with serialize }) hk (by decide)] at hacc
  revert hacc
  decide

end MatrixZht
