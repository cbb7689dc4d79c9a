import MatrixZht.Zht.Texts

namespace MatrixZht
open Lib

/-- The requests of the clients; a client keeps no state from one request to the next. -/
inductive ZhtOp where
  | insert (key val : Str)
  | lookup (key : Str)
  | remove (key : Str)
  | compareSwap (key seenVal newVal : Str)
deriving DecidableEq

/-- Serves a request on the cluster and returns the status and the result. -/
def Cluster.step (c : Cluster) (servers : Servers) : ZhtOp → Servers × Option (Int × Str)
  | .insert key val =>
    let (servers, rc) := c.insert servers key val
    (servers, rc.map (·, []))
  | .lookup key => c.lookup servers key
  | .remove key =>
    let (servers, rc) := c.remove servers key
    (servers, rc.map (·, []))
  | .compareSwap key seenVal newVal => c.compareSwap servers key seenVal newVal

def Cluster.run (c : Cluster) (servers : Servers) : List ZhtOp → Servers × List (Option (Int × Str))
  | [] => (servers, [])
  | op :: ops =>
    let (servers, answer) := c.step servers op
    let (servers, answers) := c.run servers ops
    (servers, answer :: answers)

/-- What a request does to a map. -/
def Store.step (s : Store) : ZhtOp → Store × (Int × Str)
  | .insert key val => (s.insert key val, (0, []))
  | .lookup key =>
    match s key with
    | some val => (s, (0, val))
    | none => (s, (-92, []))
  | .remove key =>
    match s key with
    | some _ => (s.remove key, (0, []))
    | none => (s, (-92, []))
  | .compareSwap key seenVal newVal =>
    let (rc, result, s) := s.compareSwap key seenVal newVal
    (s, (rc, result))

def Store.run (s : Store) : List ZhtOp → Store × List (Int × Str)
  | [] => (s, [])
  | op :: ops =>
    let (s, answer) := s.step op
    let (s, answers) := s.run ops
    (s, answer :: answers)

/-- The texts of a request are plain and differ from the words for an absent key and value. -/
def ZhtOp.Plain : ZhtOp → Prop
  | insert key val => IsKey key ∧ IsVal val
  | lookup key => IsKey key
  | remove key => IsKey key
  | compareSwap key seenVal newVal => IsKey key ∧ IsVal seenVal ∧ IsVal newVal

instance : (op : ZhtOp) → Decidable op.Plain
  | .insert _ _ => inferInstanceAs (Decidable (_ ∧ _))
  | .lookup key => inferInstanceAs (Decidable (IsKey key))
  | .remove key => inferInstanceAs (Decidable (IsKey key))
  | .compareSwap _ _ _ => inferInstanceAs (Decidable (_ ∧ _ ∧ _))

/-- The new value of a swap is not the word for an absent new value. -/
def ZhtOp.HasNewVal : ZhtOp → Prop
  | compareSwap _ _ newVal => newVal ≠ "nonewval".toList
  | _ => True

instance : (op : ZhtOp) → Decidable op.HasNewVal
  | .insert _ _ => isTrue trivial
  | .lookup _ => isTrue trivial
  | .remove _ => isTrue trivial
  | .compareSwap _ _ _ => inferInstanceAs (Decidable (_ ≠ _))

/-- The package a server stores for a bound key. -/
def storedPack (key val : Str) : ZPack := Cluster.requestPack opcInsert key val [] 1

def storedText (key val : Str) : Str := zpackToStr (storedPack key val)

theorem IsVal.sendable {val : Str} (h : IsVal val) : Sendable "noval" val := .inr h

theorem strToZpack_storedText {key val : Str} (hk : IsKey key) (hv : IsVal val) :
    strToZpack (storedText key val) = storedPack key val :=
  strToZpack_zpackToStr (requestPack_clean (by decide) hk hv.sendable (.inl rfl) 1)

theorem nul_not_mem_storedText {key val : Str} (hk : IsKey key) (hv : IsVal val) :
    '\x00' ∉ storedText key val :=
  nul_not_mem_requestPack (by decide) hk (.inr hv.1) (.inl rfl) 1

theorem storedPack_val (key : Str) {val : Str} (hv : IsVal val) :
    (storedPack key val).val = some val ∧ (storedPack key val).valnull = some false := by
  have hne : val.isEmpty = false := by simpa using hv.1.1
  simp [storedPack, Cluster.requestPack, hne]

theorem storedPack_with_val {key val newVal : Str} (hv : IsVal val) (hn : IsVal newVal) :
    { storedPack key val with val := some newVal } = storedPack key newVal := by
  have hve : val.isEmpty = false := by simpa using hv.1.1
  have hne : newVal.isEmpty = false := by simpa using hn.1.1
  simp [storedPack, Cluster.requestPack, hve, hne]

theorem extractValue_storedText {key val : Str} (hk : IsKey key) (hv : IsVal val) :
    Cluster.extractValue (storedText key val) = val := by
  obtain ⟨hval, hnull⟩ := storedPack_val key hv
  simp [Cluster.extractValue, strToZpack_storedText hk hv, hval, hnull]

section Refines

/-- The tables of the servers hold the stored texts of the bindings of a map. -/
structure Refines (c : Cluster) (servers : Servers) (s : Store) : Prop where
  wf : ∀ i, (servers i).pmap.WF c.fnvHash
  holds : ∀ i, ∃ m : Store, (servers i).pmap.Holds c.fnvHash m ∧
    ∀ key, c.route key = i → m key = (s key).map (storedText key)
  plain : ∀ key val, s key = some val → IsKey key ∧ IsVal val

variable {c : Cluster} {servers servers' : Servers} {s s' : Store} {key val : Str}

/-- The texts that stand for a map. -/
def Store.texts (s : Store) : Store := fun key => (s key).map (storedText key)

theorem texts_insert (s : Store) (key val : Str) :
    s.texts.insert key (storedText key val) = (s.insert key val).texts := by
  funext k
  by_cases hk : k = key
  · rw [hk, Store.insert_self, Store.texts, Store.insert_self, Option.map_some]
  · rw [Store.insert_of_ne hk, Store.texts, Store.texts, Store.insert_of_ne hk]

theorem texts_remove (s : Store) (key : Str) : s.texts.remove key = (s.remove key).texts := by
  funext k
  by_cases hk : k = key
  · rw [hk, Store.remove, Function.update_self, Store.texts, Store.remove, Function.update_self,
      Option.map_none]
  · rw [Store.remove, Function.update_of_ne hk, Store.texts, Store.texts, Store.remove,
      Function.update_of_ne hk]

theorem Refines.serves (h : Refines c servers s) : Serves c servers s.texts := ⟨h.wf, h.holds⟩

theorem Serves.refines (h : Serves c servers s.texts)
    (hplain : ∀ key val, s key = some val → IsKey key ∧ IsVal val) : Refines c servers s :=
  ⟨h.wf, h.holds, hplain⟩

theorem Refines.insert (h : Refines c servers s) (hk : IsKey key) (hv : IsVal val)
    (hserves : Serves c servers' (s.texts.insert key (storedText key val))) :
    Refines c servers' (s.insert key val) := by
  rw [texts_insert] at hserves
  apply hserves.refines
  intro k v hkv
  by_cases hkk : k = key
  · rw [hkk, Store.insert_self, Option.some.injEq] at hkv
    rw [hkk, ← hkv]
    exact ⟨hk, hv⟩
  · rw [Store.insert_of_ne hkk] at hkv
    exact h.plain k v hkv

theorem Refines.nul_not_mem (h : Refines c servers s) :
    ∀ text ∈ s.texts key, '\x00' ∉ text := by
  intro text htext
  obtain ⟨v, hv, rfl⟩ := Option.map_eq_some_iff.1 htext
  obtain ⟨hk, hval⟩ := h.plain key v hv
  exact nul_not_mem_storedText hk hval

/-- The reply of `lookup_shared` for a key. -/
def lookupReply (s : Store) (key : Str) : Str :=
  match s key with
  | none => recNonexistKey ++ "Empty".toList
  | some val => recSucc ++ storedText key val

theorem replyText_texts (s : Store) (key : Str) : replyText (s.texts key) = lookupReply s key := by
  rw [Store.texts, lookupReply]
  cases s key <;> rfl

theorem extractValue_lookupReply (h : Refines c servers s) (key : Str) :
    Cluster.extractValue ((lookupReply s key).drop 3) = s.lookup key := by
  unfold lookupReply
  cases hv : s key with
  | none =>
    have hempty : Cluster.extractValue "Empty".toList = [] := by decide
    rw [Store.lookup_of_none hv]
    exact hempty
  | some v =>
    obtain ⟨hk, hval⟩ := h.plain key v hv
    rw [Store.lookup_eq hv]
    exact extractValue_storedText hk hval

theorem storedVal_lookupReply (h : Refines c servers s) (key : Str) :
    (strToZpack (HTWorker.eraseStatusCode (lookupReply s key))).val.getD [] = s.lookup key := by
  unfold lookupReply
  cases hv : s key with
  | none =>
    have hempty : (strToZpack "Empty".toList).val.getD [] = [] := by decide
    rw [Store.lookup_of_none hv]
    exact hempty
  | some v =>
    obtain ⟨hk, hval⟩ := h.plain key v hv
    have hpack : strToZpack (HTWorker.eraseStatusCode (recSucc ++ storedText key v)) =
        storedPack key v := strToZpack_storedText hk hval
    rw [Store.lookup_eq hv]
    simp only [hpack, (storedPack_val key hval).1, Option.getD_some]

theorem lookup_refines (h : Refines c servers s) (hk : IsKey key) :
    (c.step servers (.lookup key)).2 = some (s.step (.lookup key)).2 ∧
      Refines c (c.step servers (.lookup key)).1 (s.step (.lookup key)).1 := by
  have hrun := commonOp_lookup h.serves hk h.nul_not_mem
  simp only [Cluster.step, Cluster.lookup, hrun, replyText_texts, Option.map_some, Store.step]
  cases hv : s key with
  | none =>
    simp only [lookupReply, hv]
    rw [readReply_append (by decide)]
    exact ⟨by decide, h⟩
  | some v =>
    obtain ⟨_, hval⟩ := h.plain key v hv
    have hcode : strToInt recSucc = 0 := by decide
    simp only [lookupReply, hv]
    rw [readReply_append (by decide), extractValue_storedText hk hval, hcode]
    exact ⟨rfl, h⟩

theorem insert_refines (h : Refines c servers s) (hk : IsKey key) (hv : IsVal val) :
    (c.step servers (.insert key val)).2 = some (s.step (.insert key val)).2 ∧
      Refines c (c.step servers (.insert key val)).1 (s.step (.insert key val)).1 := by
  obtain ⟨servers', hrun, hserves⟩ := commonOp_insert h.serves hk hv.sendable
  simp only [Cluster.step, Cluster.insert, hrun, Option.map_some, Store.step]
  exact ⟨trivial, h.insert hk hv hserves⟩

theorem remove_refines (h : Refines c servers s) (hk : IsKey key) :
    (c.step servers (.remove key)).2 = some (s.step (.remove key)).2 ∧
      Refines c (c.step servers (.remove key)).1 (s.step (.remove key)).1 := by
  cases hv : s key with
  | none =>
    have hnone : s.texts key = none := by rw [Store.texts, hv, Option.map_none]
    have hrun := commonOp_remove_none h.serves hk hnone
    simp only [Cluster.step, Cluster.remove, hrun, Option.map_some, Store.step, hv]
    exact ⟨trivial, h⟩
  | some v =>
    have hsome : s.texts key = some (storedText key v) := by rw [Store.texts, hv, Option.map_some]
    obtain ⟨servers', hrun, hserves⟩ := commonOp_remove h.serves hk hsome
    simp only [Cluster.step, Cluster.remove, hrun, Option.map_some, Store.step, hv]
    rw [texts_remove] at hserves
    refine ⟨trivial, hserves.refines fun k v hkv => ?_⟩
    by_cases hkk : k = key
    · rw [hkk, Store.remove, Function.update_self] at hkv
      cases hkv
    · rw [Store.remove, Function.update_of_ne hkk] at hkv
      exact h.plain k v hkv

theorem compareSwap_refines {seenVal newVal : Str} (h : Refines c servers s) (hk : IsKey key)
    (hseen : IsVal seenVal) (hnew : IsVal newVal) (hne : newVal ≠ "nonewval".toList) :
    (c.step servers (.compareSwap key seenVal newVal)).2 =
        some (s.step (.compareSwap key seenVal newVal)).2 ∧
      Refines c (c.step servers (.compareSwap key seenVal newVal)).1
        (s.step (.compareSwap key seenVal newVal)).1 := by
  have hreceived : Received opcCmpswp key seenVal newVal _ :=
    received (by decide) hk hseen.sendable (.inr ⟨hnew.1, hne⟩)
  have hse : seenVal.isEmpty = false := by simpa using hseen.1.1
  have hnewe : newVal.isEmpty = false := by simpa using hnew.1.1
  have hval : (Cluster.requestPack opcCmpswp key seenVal newVal 1).val.getD [] = seenVal := by
    simp [Cluster.requestPack, hse]
  have hnewval : (Cluster.requestPack opcCmpswp key seenVal newVal 1).newval.getD [] = newVal := by
    simp [Cluster.requestPack, hnewe]
  by_cases heq : s key = some seenVal
  · have htext : s.texts key = some (storedText key seenVal) := by
      rw [Store.texts, heq, Option.map_some]
    have htext' : zpackToStr { storedPack key seenVal with
        val := some ((Cluster.requestPack opcCmpswp key seenVal newVal 1).newval.getD []) } =
          storedText key newVal := by
      rw [hnewval, storedPack_with_val hseen hnew, storedText]
    have hstored : (Cluster.requestPack opcCmpswp key seenVal newVal 1).val.getD [] =
        (storedPack key seenVal).val.getD [] := by
      rw [hval, (storedPack_val key hseen).1, Option.getD_some]
    obtain ⟨servers', hrun, hserves⟩ := commonOp_cmpswp h.serves hk hreceived htext
      (strToZpack_storedText hk hseen) rfl hstored htext' (nul_not_mem_storedText hk hnew)
    have hswap : s.compareSwap key seenVal newVal = (0, newVal, s.insert key newVal) := if_pos heq
    simp only [Cluster.step, Cluster.compareSwap, hrun, Option.map_some, Store.step, hswap,
      extractValue_storedText hk hnew]
    exact ⟨trivial, h.insert hk hnew hserves⟩
  · have hdiff : (Cluster.requestPack opcCmpswp key seenVal newVal 1).val.getD [] ≠
        (strToZpack (HTWorker.eraseStatusCode (replyText (s.texts key)))).val.getD [] := by
      rw [hval, replyText_texts, storedVal_lookupReply h]
      intro he
      rw [he] at heq
      exact heq (Store.eq_some_of_lookup (he ▸ hseen.1.1))
    have hrun := commonOp_cmpswp_fail h.serves hk hreceived h.nul_not_mem hdiff
    have hswap : s.compareSwap key seenVal newVal = (-4, s.lookup key, s) := if_neg heq
    simp only [Cluster.step, Cluster.compareSwap, hrun, Option.map_some, Store.step, hswap]
    rw [replyText_texts, HTWorker.eraseStatusCode, extractValue_lookupReply h]
    exact ⟨rfl, h⟩

/-- Every request answers as the map does and keeps the cluster an image of it. -/
theorem step_refines_store (h : Refines c servers s) {op : ZhtOp} (hp : op.Plain)
    (hn : op.HasNewVal) :
    (c.step servers op).2 = some (s.step op).2 ∧ Refines c (c.step servers op).1 (s.step op).1 := by
  cases op with
  | insert key val => exact insert_refines h hp.1 hp.2
  | lookup key => exact lookup_refines h hp
  | remove key => exact remove_refines h hp
  | compareSwap key seenVal newVal => exact compareSwap_refines h hp.1 hp.2.1 hp.2.2 hn

end Refines

theorem refines_fresh (c : Cluster) : Refines c freshServers fun _ => none where
  wf := (serves_fresh c).wf
  holds := (serves_fresh c).holds
  plain := by
    intro key val h
    cases h

theorem run_refines_store {c : Cluster} {servers : Servers} {s : Store} {ops : List ZhtOp}
    (hops : ∀ op ∈ ops, op.Plain ∧ op.HasNewVal) (h : Refines c servers s) :
    (c.run servers ops).2 = (s.run ops).2.map some ∧
      Refines c (c.run servers ops).1 (s.run ops).1 := by
  induction ops generalizing servers s with
  | nil => exact ⟨rfl, h⟩
  | cons op ops ih =>
    obtain ⟨hp, hn⟩ := hops op List.mem_cons_self
    obtain ⟨hanswer, hnext⟩ := step_refines_store h hp hn
    obtain ⟨hanswers, hlast⟩ := ih (fun op hop => hops op (List.mem_cons_of_mem _ hop)) hnext
    exact ⟨by simp only [Cluster.run, Store.run, hanswer, hanswers, List.map_cons], hlast⟩

/-- The clients of a cluster see a map with an atomic compare and swap: any history of requests is
answered as the map answers it. -/
theorem run_eq_store_run (c : Cluster) (ops : List ZhtOp)
    (hops : ∀ op ∈ ops, op.Plain ∧ op.HasNewVal) :
    (c.run freshServers ops).2 = (Store.run (fun _ => none) ops).2.map some :=
  (run_refines_store hops (refines_fresh c)).1

/-- Two servers with the hash functions of the source. -/
def pairCluster : Cluster where
  genHash := genHash
  fnvHash := fnvHash
  resizeDue := fun numEl size => decide (7 * (size : Int) ≤ 10 * numEl)
  serialize := zpackToStr
  numNode := 2

theorem run_eq_store_run_pair :
    let ops : List ZhtOp := [.insert "a".toList "1".toList, .insert "b".toList "2".toList,
      .compareSwap "a".toList "1".toList "3".toList, .compareSwap "b".toList "1".toList "4".toList,
      .remove "b".toList, .lookup "a".toList, .lookup "b".toList]
    (pairCluster.run freshServers ops).2 = [some (0, []), some (0, []), some (0, "3".toList),
      some (-4, "2".toList), some (0, []), some (0, "3".toList), some (-92, [])] := by
  intro ops
  exact (run_eq_store_run pairCluster ops (by decide)).trans (by decide)

/-- Swapping in the word for an absent new value succeeds but yields, and leaves, no value. -/
theorem compareSwap_nonewval :
    let ops : List ZhtOp := [.insert "a".toList "1".toList,
      .compareSwap "a".toList "1".toList "nonewval".toList, .lookup "a".toList]
    (∀ op ∈ ops, op.Plain) ∧
      (pairCluster.run freshServers ops).2 = [some (0, []), some (0, []), some (0, [])] ∧
      (pairCluster.run freshServers ops).2 ≠ (Store.run (fun _ => none) ops).2.map some := by
  decide +kernel

end MatrixZht
