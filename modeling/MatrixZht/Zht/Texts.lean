import MatrixZht.Zht.Client

namespace MatrixZht
open Lib

/-- A text without the bytes that end fields and C strings. -/
def IsPlain (s : Str) : Prop := s ≠ [] ∧ '/' ∉ s ∧ '\x00' ∉ s

instance (s : Str) : Decidable (IsPlain s) := inferInstanceAs (Decidable (_ ∧ _ ∧ _))

def IsKey (s : Str) : Prop := IsPlain s ∧ s ≠ "nokey".toList

def IsVal (s : Str) : Prop := IsPlain s ∧ s ≠ "noval".toList

instance (s : Str) : Decidable (IsKey s) := inferInstanceAs (Decidable (_ ∧ _))

instance (s : Str) : Decidable (IsVal s) := inferInstanceAs (Decidable (_ ∧ _))

section Codec

variable {opcode key val val2 : Str}

theorem IsPlain.isText {absent : String} {s : Str} (h : IsPlain s) (hne : s ≠ absent.toList) :
    IsText absent s :=
  ⟨isField_iff.2 ⟨h.1, h.2.1⟩, hne⟩

theorem IsPlain.isField (h : IsPlain val) : IsField '/' val := isField_iff.2 ⟨h.1, h.2.1⟩

/-- What a request puts into a package: a value, or nothing. -/
def Sendable (absent : String) (s : Str) : Prop := s = [] ∨ IsPlain s ∧ s ≠ absent.toList

theorem isPlain_or_placeholder {s : Str} {c : Char} (h : s = [] ∨ IsPlain s)
    (hc : c ≠ '/' ∧ c ≠ '\x00') : IsPlain (if s.isEmpty then [c] else s) := by
  rcases h with rfl | hs
  · exact ⟨by simp, by simp [hc.1.symm], by simp [hc.2.symm]⟩
  · have hne : s.isEmpty = false := by simpa using hs.1
    rwa [hne]

theorem Sendable.isPlain {absent : String} {s : Str} (h : Sendable absent s) :
    s = [] ∨ IsPlain s :=
  h.imp_right And.left

theorem Sendable.ne {absent : String} {s : Str} {c : Char} (h : Sendable absent s)
    (hc : [c] ≠ absent.toList) : (if s.isEmpty then [c] else s) ≠ absent.toList := by
  rcases h with rfl | ⟨hs, hne⟩
  · exact hc
  · have he : s.isEmpty = false := by simpa using hs.1
    rwa [he]

theorem opcode_isPlain (h : opcode ∈ opcodes) : IsPlain opcode ∧ opcode ≠ "noopcode".toList := by
  simp only [opcodes, List.mem_cons, List.not_mem_nil, or_false] at h
  rcases h with rfl | rfl | rfl | rfl | rfl | rfl <;> decide

theorem isPlain_numToStr (n : Int) : IsPlain (numToStr n) :=
  ⟨numToStr_ne_nil n, not_mem_numToStr n (by decide) (by decide),
    not_mem_numToStr n (by decide) (by decide)⟩

theorem requestPack_clean (ho : opcode ∈ opcodes) (hk : IsKey key) (hv : Sendable "noval" val)
    (hn : Sendable "nonewval" val2) (lease : Int) :
    (Cluster.requestPack opcode key val val2 lease).Clean where
  opcode := by
    rintro s ⟨⟩
    exact (opcode_isPlain ho).1.isText (opcode_isPlain ho).2
  key := by
    rintro s ⟨⟩
    exact hk.1.isText hk.2
  val := by
    rintro s ⟨⟩
    exact (isPlain_or_placeholder hv.isPlain (by decide)).isText (hv.ne (by decide))
  newval := by
    rintro s ⟨⟩
    exact (isPlain_or_placeholder hn.isPlain (by decide)).isText (hn.ne (by decide))
  lease := by
    rintro s ⟨⟩
    exact (isPlain_numToStr lease).isText
      (numToStr_ne_word lease (c := 'n') (by decide) (by decide) (by decide))
  replicanum := by
    rintro n ⟨⟩
    decide

theorem nul_not_mem_requestPack (ho : opcode ∈ opcodes) (hk : IsKey key)
    (hv : val = [] ∨ IsPlain val) (hn : val2 = [] ∨ IsPlain val2) (lease : Int) :
    '\x00' ∉ zpackToStr (Cluster.requestPack opcode key val val2 lease) := by
  refine not_mem_terminate (by decide) ?_
  have hbool (b : Bool) : '\x00' ∉ boolToStr b := by cases b <;> decide
  simp only [zpackFields, Cluster.requestPack, Option.getD_some, Option.map_some,
    List.forall_mem_cons, List.not_mem_nil, false_implies, implies_true, and_true]
  exact ⟨(opcode_isPlain ho).1.2.2, hk.1.2.2, (isPlain_or_placeholder hv (by decide)).2.2,
    (isPlain_or_placeholder hn (by decide)).2.2, (isPlain_numToStr lease).2.2, hbool _, hbool _,
    (isPlain_numToStr 3).2.2⟩

end Codec

/-- How a server reads a request. -/
structure Received (opcode key val val2 : Str) (zpack : ZPack) : Prop where
  nul : '\x00' ∉ zpackToStr (Cluster.requestPack opcode key val val2 1)
  read : strToZpack (zpackToStr (Cluster.requestPack opcode key val val2 1)) = zpack
  opcode : zpack.opcode = some opcode
  key : zpack.key = some key

section Requests

variable {c : Cluster} {servers : Servers} {opcode key val val2 : Str} {zpack : ZPack}

theorem received (ho : opcode ∈ opcodes) (hk : IsKey key) (hv : Sendable "noval" val)
    (hn : Sendable "nonewval" val2) :
    Received opcode key val val2 (Cluster.requestPack opcode key val val2 1) where
  nul := nul_not_mem_requestPack ho hk hv.isPlain hn.isPlain 1
  read := strToZpack_zpackToStr (requestPack_clean ho hk hv hn 1)
  opcode := rfl
  key := rfl

def Cluster.route (c : Cluster) (key : Str) : Nat := c.genHash key % c.numNode

/-- How a client reads a reply. -/
def readReply (srecv : Str) : Int × Str :=
  (Cluster.statusOf (Cluster.parseReply srecv).1, (Cluster.parseReply srecv).2)

theorem commonOp_eq_of_host (ho : opcode ∈ opcodes) (hk : key ≠ []) {i : Nat}
    (hi : c.getHostEntityByKey (zpackToStr (Cluster.requestPack opcode key val val2 1)) = i) :
    c.commonOp servers opcode key val val2 1 =
      let msg := zpackToStr (Cluster.requestPack opcode key val val2 1)
      let r := (servers i).run c.fnvHash c.resizeDue c.serialize (cstr msg)
      (Function.update servers i r.1, r.2.map fun reply => readReply (cstr reply)) := by
  have hke : key.isEmpty = false := by simpa using hk
  unfold Cluster.commonOp
  rw [if_neg (not_not_intro ho)]
  simp only [Cluster.commonOpInternal, hke, Bool.false_eq_true, if_false, Cluster.sendrecv, hi,
    Option.map_map, Function.comp_def, readReply]

theorem commonOp_eq (ho : opcode ∈ opcodes) (hk : IsKey key)
    (hz : Received opcode key val val2 zpack) :
    c.commonOp servers opcode key val val2 1 =
      let msg := zpackToStr (Cluster.requestPack opcode key val val2 1)
      let r := (servers (c.route key)).run c.fnvHash c.resizeDue c.serialize msg
      (Function.update servers (c.route key) r.1,
        r.2.map fun reply => readReply (cstr reply)) := by
  have hroute : c.getHostEntityByKey
      (zpackToStr (Cluster.requestPack opcode key val val2 1)) = c.route key := by
    rw [Cluster.getHostEntityByKey, hz.read, hz.key]
    rfl
  rw [commonOp_eq_of_host ho hk.1.1 hroute]
  simp only [cstr_eq hz.nul]

theorem commonOp_of_run (ho : opcode ∈ opcodes) (hk : IsKey key)
    (hz : Received opcode key val val2 zpack) {w : HTWorker} {reply : Str}
    (hreply : '\x00' ∉ reply)
    (hrun : ∀ buf, strToZpack buf = zpack →
      (servers (c.route key)).run c.fnvHash c.resizeDue c.serialize buf = (w, some reply)) :
    c.commonOp servers opcode key val val2 1 =
      (Function.update servers (c.route key) w, some (readReply reply)) := by
  rw [commonOp_eq ho hk hz]
  simp only [hrun _ hz.read, Option.map_some, cstr_eq hreply]

theorem readReply_append {code : Str} (h : code.length = 3) (t : Str) :
    readReply (code ++ t) = (strToInt code, t) := by
  have hne : code ≠ [] := by
    rintro rfl
    simp at h
  have happ : (code ++ t).isEmpty = false := by simp [hne]
  have htake : (code ++ t).take 3 = code := by rw [← h, List.take_left]
  have hdrop : (code ++ t).drop 3 = t := by rw [← h, List.drop_left]
  have hcode : code.isEmpty = false := by simpa using hne
  simp [readReply, Cluster.parseReply, Cluster.statusOf, happ, htake, hdrop, hcode]

end Requests

/-- The tables of the servers hold these texts. -/
structure Serves (c : Cluster) (servers : Servers) (texts : Store) : Prop where
  wf : ∀ i, (servers i).pmap.WF c.fnvHash
  holds : ∀ i, ∃ m : Store, (servers i).pmap.Holds c.fnvHash m ∧
    ∀ key, c.route key = i → m key = texts key

/-- The reply of `lookup_shared` when it finds this. -/
def replyText : Option Str → Str
  | none => recNonexistKey ++ "Empty".toList
  | some text => recSucc ++ text

section Serves

variable {c : Cluster} {servers : Servers} {texts : Store} {key : Str}

theorem Serves.update (h : Serves c servers texts) {w : HTWorker} (hw : w.pmap.WF c.fnvHash)
    {m m' : Store} (hm : ∀ k, c.route k = c.route key → m k = texts k)
    (hm' : w.pmap.Holds c.fnvHash m') (hother : ∀ k, k ≠ key → m' k = m k) :
    Serves c (Function.update servers (c.route key) w) (Function.update texts key (m' key)) where
  wf := by
    intro i
    by_cases hi : i = c.route key
    · rw [hi, Function.update_self]
      exact hw
    · rw [Function.update_of_ne hi]
      exact h.wf i
  holds := by
    intro i
    by_cases hi : i = c.route key
    · rw [hi, Function.update_self]
      refine ⟨m', hm', fun k hk => ?_⟩
      by_cases hkk : k = key
      · rw [hkk, Function.update_self]
      · rw [hother k hkk, hm k hk, Function.update_of_ne hkk]
    · rw [Function.update_of_ne hi]
      obtain ⟨mi, hmi, hs⟩ := h.holds i
      refine ⟨mi, hmi, fun k hk => ?_⟩
      have hkk : k ≠ key := fun he => hi (he ▸ hk.symm)
      rw [hs k hk, Function.update_of_ne hkk]

theorem nul_not_mem_replyText {text : Option Str} (h : ∀ t ∈ text, '\x00' ∉ t) :
    '\x00' ∉ replyText text := by
  cases text with
  | none => decide
  | some t =>
    rw [replyText, List.mem_append, not_or]
    exact ⟨by decide, h t rfl⟩

theorem lookupShared_eq {pmap : NoVoHT} {hash : Str → Nat} (hw : pmap.WF hash) {m : Store}
    (hm : pmap.Holds hash m) (hk : IsKey key) {zpack : ZPack} (hz : zpack.key = some key) :
    HTWorker.lookupShared hash pmap zpack = replyText (m key) := by
  have hke : key.isEmpty = false := by simpa using hk.1.1
  simp only [HTWorker.lookupShared, hz, Option.getD_some, hke, Bool.false_eq_true, if_false,
    NoVoHT.get_eq hw hm hk.1.1]
  cases m key <;> rfl

theorem insertShared_spec {pmap : NoVoHT} {hash : Str → Nat} (resizeDue : Int → Nat → Bool)
    (hw : pmap.WF hash) {m : Store} (hm : pmap.Holds hash m) (hk : IsKey key) {zpack : ZPack}
    (hz : zpack.key = some key) :
    ∃ pmap', HTWorker.insertShared hash resizeDue pmap zpack = (pmap', recSucc) ∧
      pmap'.WF hash ∧ pmap'.Holds hash (m.insert key (zpackToStr zpack)) := by
  obtain ⟨hret, hspec⟩ := NoVoHT.put_spec resizeDue hw hm key (zpackToStr zpack)
  refine ⟨_, ?_, hspec⟩
  have hke : key.isEmpty = false := by simpa using hk.1.1
  simp only [HTWorker.insertShared, hz, Option.getD_some, hke, Bool.false_eq_true, if_false]
  exact congrArg _ (if_neg (not_not_intro hret))

theorem commonOp_lookup (h : Serves c servers texts) (hk : IsKey key)
    (hnul : ∀ text ∈ texts key, '\x00' ∉ text) :
    c.commonOp servers opcLookup key [] [] 1 =
      (servers, some (readReply (replyText (texts key)))) := by
  obtain ⟨m, hm, hs⟩ := h.holds (c.route key)
  have hrun := @commonOp_of_run c servers opcLookup key [] [] _ (by decide) hk
    (received (by decide) hk (.inl rfl) (.inl rfl)) (servers (c.route key)) (replyText (texts key))
    (nul_not_mem_replyText hnul) fun buf hdec => by
      rw [HTWorker.run_lookup _ hdec rfl, lookupShared_eq (h.wf _) hm hk rfl, hs key rfl]
  rwa [Function.update_eq_self] at hrun

theorem commonOp_insert (h : Serves c servers texts) (hk : IsKey key) {val : Str}
    (hv : Sendable "noval" val) :
    ∃ servers', c.commonOp servers opcInsert key val [] 1 = (servers', some (0, [])) ∧
      Serves c servers' (texts.insert key
        (zpackToStr (Cluster.requestPack opcInsert key val [] 1))) := by
  obtain ⟨m, hm, hs⟩ := h.holds (c.route key)
  have hkey : (Cluster.requestPack opcInsert key val [] 1).key = some key := rfl
  obtain ⟨pmap, hins, hwf, hholds⟩ :=
    insertShared_spec c.resizeDue (h.wf (c.route key)) hm hk hkey
  have hrun := @commonOp_of_run c servers opcInsert key val [] _ (by decide) hk
    (received (by decide) hk hv (.inl rfl)) { servers (c.route key) with pmap } recSucc
    (by decide) fun buf hdec => by rw [HTWorker.run_insert _ hdec rfl, hins]
  refine ⟨_, hrun, ?_⟩
  have hserves := h.update (w := { servers (c.route key) with pmap }) hwf hs hholds fun k hk =>
    Store.insert_of_ne hk
  rwa [Store.insert_self] at hserves

theorem commonOp_remove_none (h : Serves c servers texts) (hk : IsKey key)
    (hnone : texts key = none) :
    c.commonOp servers opcRemove key [] [] 1 = (servers, some (-92, [])) := by
  obtain ⟨m, hm, hs⟩ := h.holds (c.route key)
  have hke : key.isEmpty = false := by simpa using hk.1.1
  have hmk : m key = none := (hs key rfl).trans hnone
  have hrun := @commonOp_of_run c servers opcRemove key [] [] _ (by decide) hk
    (received (by decide) hk (.inl rfl) (.inl rfl)) (servers (c.route key)) recNonexistKey
    (by decide) fun buf hdec => by
      have hkey : (Cluster.requestPack opcRemove key [] [] 1).key = some key := rfl
      rw [HTWorker.run_remove _ hdec rfl]
      simp only [HTWorker.removeShared, hkey, Option.getD_some, hke, Bool.false_eq_true, if_false,
        NoVoHT.remove_spec_of_none hm hmk]
      rfl
  rwa [Function.update_eq_self] at hrun

theorem commonOp_remove (h : Serves c servers texts) (hk : IsKey key) {text : Str}
    (hsome : texts key = some text) :
    ∃ servers', c.commonOp servers opcRemove key [] [] 1 = (servers', some (0, [])) ∧
      Serves c servers' (texts.remove key) := by
  obtain ⟨m, hm, hs⟩ := h.holds (c.route key)
  have hke : key.isEmpty = false := by simpa using hk.1.1
  obtain ⟨hret, hwf, hholds⟩ :=
    NoVoHT.remove_spec (h.wf (c.route key)) hm ((hs key rfl).trans hsome)
  have hrun := @commonOp_of_run c servers opcRemove key [] [] _ (by decide) hk
    (received (by decide) hk (.inl rfl) (.inl rfl))
    { servers (c.route key) with
      pmap := ((servers (c.route key)).pmap.remove c.fnvHash key).1 } recSucc
    (by decide) fun buf hdec => by
      have hkey : (Cluster.requestPack opcRemove key [] [] 1).key = some key := rfl
      rw [HTWorker.run_remove _ hdec rfl]
      simp only [HTWorker.removeShared, hkey, Option.getD_some, hke, Bool.false_eq_true, if_false,
        hret]
      rfl
  refine ⟨_, hrun, ?_⟩
  have hserves := h.update (w := { servers (c.route key) with
    pmap := ((servers (c.route key)).pmap.remove c.fnvHash key).1 }) hwf hs hholds fun k hk =>
      Function.update_of_ne hk ..
  rwa [Store.remove, Function.update_self] at hserves

section Swap

variable {seenVal newVal : Str} {zpack : ZPack}

theorem commonOp_cmpswp_fail (h : Serves c servers texts) (hk : IsKey key)
    (hz : Received opcCmpswp key seenVal newVal zpack)
    (hnul : ∀ text ∈ texts key, '\x00' ∉ text)
    (hne : zpack.val.getD [] ≠
      (strToZpack (HTWorker.eraseStatusCode (replyText (texts key)))).val.getD []) :
    c.commonOp servers opcCmpswp key seenVal newVal 1 =
      (servers, some (-4, HTWorker.eraseStatusCode (replyText (texts key)))) := by
  obtain ⟨m, hm, hs⟩ := h.holds (c.route key)
  have hke : key.isEmpty = false := by simpa using hk.1.1
  have hlook := lookupShared_eq (h.wf (c.route key)) hm hk hz.key
  rw [hs key rfl] at hlook
  have hreply : '\x00' ∉ recSrvExp ++ HTWorker.eraseStatusCode (replyText (texts key)) := by
    rw [List.mem_append, not_or]
    exact ⟨by decide, fun hc => nul_not_mem_replyText hnul (List.mem_of_mem_drop hc)⟩
  have hrun := @commonOp_of_run c servers opcCmpswp key seenVal newVal _ (by decide) hk hz
    (servers (c.route key)) _ hreply fun buf hdec => by
      rw [HTWorker.run_cmpswp _ hdec hz.opcode]
      simp only [HTWorker.compareSwap, HTWorker.compareSwapInternal, hz.key, Option.getD_some, hke,
        Bool.false_eq_true, if_false, hlook, if_neg hne]
  rw [Function.update_eq_self, readReply_append (by decide)] at hrun
  exact hrun

/-- A swap of the stored value puts the new one into the stored package. -/
theorem commonOp_cmpswp (h : Serves c servers texts) (hk : IsKey key)
    (hz : Received opcCmpswp key seenVal newVal zpack) {text text' : Str} {lzpack : ZPack}
    (htext : texts key = some text) (hread : strToZpack text = lzpack)
    (hkey : lzpack.key = some key) (heq : zpack.val.getD [] = lzpack.val.getD [])
    (htext' : zpackToStr { lzpack with val := some (zpack.newval.getD []) } = text')
    (hnul : '\x00' ∉ text') :
    ∃ servers', c.commonOp servers opcCmpswp key seenVal newVal 1 = (servers', some (0, text')) ∧
      Serves c servers' (texts.insert key text') := by
  obtain ⟨m, hm, hs⟩ := h.holds (c.route key)
  have hke : key.isEmpty = false := by simpa using hk.1.1
  have hkey' : ({ lzpack with val := some (zpack.newval.getD []) } : ZPack).key = some key := hkey
  obtain ⟨pmap, hins, hwf, hholds⟩ :=
    insertShared_spec c.resizeDue (h.wf (c.route key)) hm hk hkey'
  rw [htext'] at hholds
  have hlook := lookupShared_eq (h.wf (c.route key)) hm hk hz.key
  have hlook' := lookupShared_eq hwf hholds hk hz.key
  rw [hs key rfl, htext] at hlook
  rw [Store.insert_self] at hlook'
  have hpack : strToZpack (HTWorker.eraseStatusCode (replyText (some text))) = lzpack := hread
  have hreply : '\x00' ∉ recSucc ++ text' := by
    rw [List.mem_append, not_or]
    exact ⟨by decide, hnul⟩
  have hrun := @commonOp_of_run c servers opcCmpswp key seenVal newVal _ (by decide) hk hz
    { servers (c.route key) with pmap } _ hreply fun buf hdec => by
      rw [HTWorker.run_cmpswp _ hdec hz.opcode]
      simp only [HTWorker.compareSwap, HTWorker.compareSwapInternal, hz.key, Option.getD_some, hke,
        Bool.false_eq_true, if_false, hlook, hpack, if_pos heq, hins, hlook']
      rfl
  rw [readReply_append (by decide)] at hrun
  refine ⟨_, hrun, ?_⟩
  have hserves := h.update (w := { servers (c.route key) with pmap }) hwf hs hholds fun k hk =>
    Store.insert_of_ne hk
  rwa [Store.insert_self] at hserves

end Swap

end Serves

/-- The servers before the first request, each with the table `init_me` makes. -/
def freshServers : Servers := fun _ => { pmap := { size := 100000 } }

theorem serves_fresh (c : Cluster) : Serves c freshServers fun _ => none where
  wf := fun _ => NoVoHT.wf_empty c.fnvHash (by decide)
  holds := fun _ => ⟨fun _ => none, NoVoHT.holds_empty c.fnvHash 100000, fun _ _ => rfl⟩

end MatrixZht
