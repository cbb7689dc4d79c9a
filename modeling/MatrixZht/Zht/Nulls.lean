import MatrixZht.Zht.Refinement

namespace MatrixZht
open Lib

/-- An empty value, or a text that is neither a placeholder nor the word for an absent value. -/
def IsValue (s : Str) : Prop := s = [] ∨ IsVal s ∧ s ≠ ['^'] ∧ s ≠ ['?']

instance (s : Str) : Decidable (IsValue s) := inferInstanceAs (Decidable (_ ∨ _ ∧ _ ∧ _))

/-- The values of a request may be empty. -/
def ZhtOp.Valued : ZhtOp → Prop
  | insert key val => IsKey key ∧ IsValue val
  | lookup key => IsKey key
  | remove key => IsKey key
  | compareSwap key seenVal newVal => IsKey key ∧ IsValue seenVal ∧ IsValue newVal

instance : (op : ZhtOp) → Decidable op.Valued
  | .insert _ _ => inferInstanceAs (Decidable (_ ∧ _))
  | .lookup key => inferInstanceAs (Decidable (IsKey key))
  | .remove key => inferInstanceAs (Decidable (IsKey key))
  | .compareSwap _ _ _ => inferInstanceAs (Decidable (_ ∧ _ ∧ _))

/-- What a request has written, given its answer. -/
def Store.record (s : Store) : ZhtOp → Option (Int × Str) → Store
  | .insert key val, some (0, _) => s.insert key val
  | .compareSwap key _ newVal, some (0, _) => s.insert key newVal
  | .remove key, some (0, _) => s.remove key
  | _, _ => s

/-- For every key, the value of the last successful write of a history. -/
def Cluster.written (c : Cluster) (servers : Servers) (s : Store) : List ZhtOp → Store
  | [] => s
  | op :: ops => c.written (c.step servers op).1 (s.record op (c.step servers op).2) ops

/-- The package that the server of a key holds for it. -/
def Cluster.stored (c : Cluster) (servers : Servers) (key : Str) : ZPack :=
  strToZpack (((servers (c.route key)).pmap.get c.fnvHash key).getD [])

/-- A swap of the stored value does not replace a value by nothing, or nothing by a value, nor does
it swap in the word for an absent new value. -/
def Cluster.SwapKeepsNull (c : Cluster) (servers : Servers) : ZhtOp → Prop
  | .compareSwap key seenVal newVal =>
    (c.stored servers key).val.getD [] = (if seenVal.isEmpty then ['^'] else seenVal) →
      (newVal = [] ↔ (c.stored servers key).valnull = some true) ∧ newVal ≠ "nonewval".toList
  | _ => True

/-- The package of an inserted value, with the value and its null flag replaced. -/
def heldPack (key val : Str) (null : Bool) : ZPack :=
  { Cluster.requestPack opcInsert key [] [] 1 with val := some val, valnull := some null }

/-- The texts that stand for a value in a package. -/
def StandsFor (val text : Str) : Prop :=
  val ≠ [] ∧ text = val ∨ val = [] ∧ (text = ['^'] ∨ text = ['?'])

section Held

variable {key val text : Str} {null : Bool}

theorem heldPack_clean (hk : IsKey key) (ht : IsVal text) : (heldPack key text null).Clean :=
  have h := requestPack_clean (by decide : opcInsert ∈ opcodes) hk (.inl rfl) (.inl rfl) 1
  { opcode := h.opcode
    key := h.key
    val := by
      rintro s ⟨⟩
      exact ht.1.isText ht.2
    newval := h.newval
    lease := h.lease
    replicanum := h.replicanum }

theorem strToZpack_heldPack (hk : IsKey key) (ht : IsVal text) :
    strToZpack (zpackToStr (heldPack key text null)) = heldPack key text null :=
  strToZpack_zpackToStr (heldPack_clean hk ht)

theorem nul_not_mem_heldPack (hk : IsKey key) (ht : '\x00' ∉ text) :
    '\x00' ∉ zpackToStr (heldPack key text null) := by
  refine not_mem_terminate (by decide) ?_
  have hbool (b : Bool) : '\x00' ∉ boolToStr b := by cases b <;> decide
  simp only [zpackFields, heldPack, Cluster.requestPack, Option.getD_some, Option.map_some,
    List.forall_mem_cons, List.not_mem_nil, false_implies, implies_true, and_true]
  exact ⟨by decide, hk.1.2.2, ht, by decide, by decide, hbool _, hbool _, by decide⟩

theorem extractValue_heldPack (hk : IsKey key) (ht : IsVal text) :
    Cluster.extractValue (zpackToStr (heldPack key text null)) = if null then [] else text := by
  rw [Cluster.extractValue, strToZpack_heldPack hk ht]
  rfl

theorem strToZpack_heldPack_nil (hk : IsKey key) :
    strToZpack (zpackToStr (heldPack key [] null)) = {} := by
  have hclean : ∀ w ∈ zpackFields (heldPack key [] null), ∀ c ∈ w,
      ['/', '/'].contains c = false := by
    have hfree : ∀ w ∈ zpackFields (heldPack key [] null), '/' ∉ w := by
      have hbool (b : Bool) : '/' ∉ boolToStr b := by cases b <;> decide
      simp only [zpackFields, heldPack, Cluster.requestPack, Option.getD_some, Option.map_some,
        List.forall_mem_cons, List.not_mem_nil, false_implies, implies_true, and_true,
        not_false_eq_true, true_and]
      exact ⟨by decide, hk.1.2.1, by decide, by decide, hbool _, hbool _, by decide⟩
    intro w hw c hc
    have hne : c ≠ '/' := fun he => hfree w hw (he ▸ hc)
    simp [hne]
  rw [strToZpack, tokenize_eq_tokens, zpackToStr,
    tokens_terminate_filter hclean (by simp) (by simp)]
  obtain ⟨k, ks, rfl⟩ := List.exists_cons_of_ne_nil hk.1.1
  cases null <;> rfl

end Held

/-- What the servers hold for a key, given the value last written. -/
def KeepsText (key : Str) : Option Str → Option Str → Prop
  | none, text => text = none
  | some val, text => IsKey key ∧ ∃ w, IsVal w ∧ StandsFor val w ∧
      text = some (zpackToStr (heldPack key w val.isEmpty))

/-- Every key holds a package of the value last written, whose null flag is right. -/
def Preserves (c : Cluster) (servers : Servers) (s : Store) : Prop :=
  ∃ texts, Serves c servers texts ∧ ∀ key, KeepsText key (s key) (texts key)

/-- What a swap puts into the stored package. -/
def swappedText (newVal : Str) : Str :=
  if newVal = "nonewval".toList then [] else if newVal.isEmpty then ['?'] else newVal

section Steps

variable {c : Cluster} {servers servers' : Servers} {s texts : Store}
  {key val seenVal newVal text : Str}

theorem IsValue.plain (h : IsValue val) : val = [] ∨ IsPlain val := h.imp_right fun h => h.1.1

theorem IsValue.sendable (h : IsValue val) : Sendable "noval" val := h.imp_right And.left

theorem standsFor_placeholder {d : Char} (hd : d = '^' ∨ d = '?') (hv : IsValue val) :
    IsVal (if val.isEmpty then [d] else val) ∧
      StandsFor val (if val.isEmpty then [d] else val) := by
  rcases hv with rfl | ⟨hval, _⟩
  · rcases hd with rfl | rfl
    · exact ⟨by decide, .inr ⟨rfl, .inl rfl⟩⟩
    · exact ⟨by decide, .inr ⟨rfl, .inr rfl⟩⟩
  · have hne : val.isEmpty = false := by simpa using hval.1.1
    rw [hne]
    exact ⟨hval, .inl ⟨hval.1.1, rfl⟩⟩

theorem swappedText_of_ne (h : newVal ≠ "nonewval".toList) :
    swappedText newVal = if newVal.isEmpty then ['?'] else newVal :=
  if_neg h

theorem nul_not_mem_swappedText (h : IsValue newVal) : '\x00' ∉ swappedText newVal := by
  rw [swappedText]
  split
  · exact List.not_mem_nil
  · exact (isPlain_or_placeholder h.plain (by decide)).2.2

theorem received_swap (hk : IsKey key) (hseen : IsValue seenVal) (hnew : IsValue newVal) :
    ∃ zpack, Received opcCmpswp key seenVal newVal zpack ∧
      zpack.val.getD [] = (if seenVal.isEmpty then ['^'] else seenVal) ∧
        zpack.newval.getD [] = swappedText newVal := by
  by_cases hne : newVal = "nonewval".toList
  · -- the text is that of a package without a new value
    subst hne
    have h := requestPack_clean (by decide : opcCmpswp ∈ opcodes) hk hseen.sendable (.inl rfl) 1
    have hclean : ({ Cluster.requestPack opcCmpswp key seenVal "nonewval".toList 1 with
        newval := none } : ZPack).Clean :=
      { opcode := h.opcode
        key := h.key
        val := h.val
        newval := fun s hs => nomatch hs
        lease := h.lease
        replicanum := h.replicanum }
    have hread := strToZpack_zpackToStr hclean
    have hnul := nul_not_mem_requestPack (by decide : opcCmpswp ∈ opcodes) hk hseen.plain
      (.inr (by decide) : "nonewval".toList = [] ∨ IsPlain "nonewval".toList) 1
    exact ⟨_, ⟨hnul, hread, rfl, rfl⟩, rfl, rfl⟩
  · have hn : Sendable "nonewval" newVal := hnew.imp_right fun h => ⟨h.1.1, hne⟩
    refine ⟨_, received (by decide) hk hseen.sendable hn, rfl, ?_⟩
    rw [swappedText_of_ne hne]
    rfl

theorem KeepsText.nul_not_mem {o text : Option Str} (h : KeepsText key o text) :
    ∀ t ∈ text, '\x00' ∉ t := by
  cases o with
  | none =>
    rw [KeepsText] at h
    rw [h]
    exact fun t ht => nomatch ht
  | some val =>
    obtain ⟨hk, w, hw, _, rfl⟩ := h
    rintro t ⟨⟩
    exact nul_not_mem_heldPack hk hw.1.2.2

theorem stored_eq (h : Serves c servers texts) (hk : IsKey key) :
    c.stored servers key = strToZpack ((texts key).getD []) := by
  obtain ⟨m, hm, hs⟩ := h.holds (c.route key)
  rw [Cluster.stored, NoVoHT.get_eq (h.wf _) hm hk.1.1, hs key rfl]

theorem extractValue_of_standsFor (hk : IsKey key) (ht : IsVal text) (h : StandsFor val text) :
    Cluster.extractValue (zpackToStr (heldPack key text val.isEmpty)) = val := by
  rw [extractValue_heldPack hk ht]
  rcases h with ⟨hne, rfl⟩ | ⟨rfl, _⟩
  · have hval : text.isEmpty = false := by simpa using hne
    rw [hval]
    rfl
  · rfl

theorem lookup_of_text (h : Serves c servers texts) (hk : IsKey key) (htext : texts key = some text)
    (hnul : '\x00' ∉ text) :
    c.step servers (.lookup key) = (servers, some (0, Cluster.extractValue text)) := by
  have hrun := commonOp_lookup h hk fun t ht => by
    rw [htext] at ht
    exact Option.some.inj ht ▸ hnul
  have hcode : strToInt recSucc = 0 := by decide
  rw [htext, replyText, readReply_append (by decide), hcode] at hrun
  simp only [Cluster.step, Cluster.lookup, hrun, Option.map_some]

theorem lookup_of_none (h : Serves c servers texts) (hk : IsKey key) (htext : texts key = none) :
    c.step servers (.lookup key) = (servers, some (-92, [])) := by
  have hrun := commonOp_lookup h hk fun t ht => by
    rw [htext] at ht
    cases ht
  have hcode : strToInt recNonexistKey = -92 := by decide
  have hempty : Cluster.extractValue "Empty".toList = [] := by decide
  rw [htext, replyText, readReply_append (by decide), hcode] at hrun
  simp only [Cluster.step, Cluster.lookup, hrun, Option.map_some, hempty]

theorem Preserves.lookup (h : Preserves c servers s) (hval : s key = some val) :
    c.step servers (.lookup key) = (servers, some (0, val)) ∧
      (c.stored servers key).valnull = some val.isEmpty := by
  obtain ⟨texts, hserves, hkeeps⟩ := h
  have hkey := hkeeps key
  rw [hval] at hkey
  obtain ⟨hk, w, hw, hstands, htext⟩ := hkey
  constructor
  · rw [lookup_of_text hserves hk htext (nul_not_mem_heldPack hk hw.1.2.2),
      extractValue_of_standsFor hk hw hstands]
  · rw [stored_eq hserves hk, htext, Option.getD_some, strToZpack_heldPack hk hw]
    rfl

theorem keeps_insert {val' : Str} (hkeeps : ∀ key, KeepsText key (s key) (texts key))
    (hnew : KeepsText key (some val) (some val')) (k : Str) :
    KeepsText k (s.insert key val k) (texts.insert key val' k) := by
  by_cases hk : k = key
  · rw [hk, Store.insert_self, Store.insert_self]
    exact hnew
  · rw [Store.insert_of_ne hk, Store.insert_of_ne hk]
    exact hkeeps k

theorem swap_cases (hserves : Serves c servers texts)
    (hkeeps : ∀ key, KeepsText key (s key) (texts key)) (hk : IsKey key)
    (hseen : IsValue seenVal) (hnew : IsValue newVal) :
    ((c.stored servers key).val.getD [] ≠ (if seenVal.isEmpty then ['^'] else seenVal) ∧
        ∃ r, c.step servers (.compareSwap key seenVal newVal) = (servers, some (-4, r))) ∨
      (c.stored servers key).val.getD [] = (if seenVal.isEmpty then ['^'] else seenVal) ∧
        ∃ val servers' r, s key = some val ∧
          (c.stored servers key).valnull = some val.isEmpty ∧
            c.step servers (.compareSwap key seenVal newVal) = (servers', some (0, r)) ∧
              Serves c servers' (texts.insert key
                (zpackToStr (heldPack key (swappedText newVal) val.isEmpty))) := by
  obtain ⟨zpack, hz, hseenv, hnewv⟩ := received_swap hk hseen hnew
  have hnul := (hkeeps key).nul_not_mem
  have hstored : c.stored servers key =
      strToZpack (HTWorker.eraseStatusCode (replyText (texts key))) := by
    rw [stored_eq hserves hk]
    cases texts key <;> rfl
  rw [← hseenv]
  by_cases heq : (c.stored servers key).val.getD [] = zpack.val.getD []
  · have hkey := hkeeps key
    cases hval : s key with
    | none =>
      rw [hval, KeepsText] at hkey
      rw [stored_eq hserves hk, hkey, hseenv] at heq
      have hne := (standsFor_placeholder (.inl rfl) hseen).1.1.1
      exact absurd heq.symm hne
    | some val =>
      rw [hval] at hkey
      obtain ⟨_, w, hw, _, htext⟩ := hkey
      have hpack : c.stored servers key = heldPack key w val.isEmpty := by
        rw [stored_eq hserves hk, htext, Option.getD_some, strToZpack_heldPack hk hw]
      rw [hpack] at heq ⊢
      have htext' : zpackToStr { heldPack key w val.isEmpty with
          val := some (zpack.newval.getD []) } =
            zpackToStr (heldPack key (swappedText newVal) val.isEmpty) := by
        rw [hnewv]
        rfl
      obtain ⟨servers', hrun, hserves'⟩ := commonOp_cmpswp hserves hk hz htext
        (strToZpack_heldPack hk hw) rfl heq.symm htext'
        (nul_not_mem_heldPack hk (nul_not_mem_swappedText hnew))
      have hstep : ∃ r, c.step servers (.compareSwap key seenVal newVal) =
          (servers', some (0, r)) := by
        simp only [Cluster.step, Cluster.compareSwap, hrun, Option.map_some]
        exact ⟨_, rfl⟩
      obtain ⟨r, hstep⟩ := hstep
      exact .inr ⟨heq, val, servers', r, rfl, rfl, hstep, hserves'⟩
  · have hne := Ne.symm heq
    rw [hstored] at hne
    have hrun := commonOp_cmpswp_fail hserves hk hz hnul hne
    refine .inl ⟨heq, ?_⟩
    simp only [Cluster.step, Cluster.compareSwap, hrun, Option.map_some]
    exact ⟨_, rfl⟩

/-- Requests keep the packages right as long as no swap changes between a value and nothing. -/
theorem step_preserves {op : ZhtOp} (h : Preserves c servers s) (hop : op.Valued)
    (hswap : c.SwapKeepsNull servers op) :
    Preserves c (c.step servers op).1 (s.record op (c.step servers op).2) := by
  obtain ⟨texts, hserves, hkeeps⟩ := id h
  cases op with
  | insert key val =>
    obtain ⟨hk, hv⟩ := hop
    obtain ⟨servers', hrun, hserves'⟩ := commonOp_insert hserves hk hv.sendable
    obtain ⟨hw, hstands⟩ := standsFor_placeholder (.inl rfl) hv
    simp only [Cluster.step, Cluster.insert, hrun, Option.map_some]
    exact ⟨_, hserves', keeps_insert hkeeps ⟨hk, _, hw, hstands, rfl⟩⟩
  | lookup key =>
    have hsame : (c.step servers (.lookup key)).1 = servers := by
      cases hval : s key with
      | none =>
        have hkey := hkeeps key
        rw [hval, KeepsText] at hkey
        rw [lookup_of_none hserves hop hkey]
      | some val => rw [(h.lookup hval).1]
    rw [hsame]
    exact h
  | remove key =>
    have hkey := hkeeps key
    cases hval : s key with
    | none =>
      rw [hval, KeepsText] at hkey
      have hrun := commonOp_remove_none hserves hop hkey
      simp only [Cluster.step, Cluster.remove, hrun, Option.map_some]
      exact h
    | some val =>
      rw [hval] at hkey
      obtain ⟨_, w, _, _, htext⟩ := hkey
      obtain ⟨servers', hrun, hserves'⟩ := commonOp_remove hserves hop htext
      simp only [Cluster.step, Cluster.remove, hrun, Option.map_some]
      refine ⟨_, hserves', fun k => ?_⟩
      by_cases hk : k = key
      · rw [hk]
        simp only [Store.record, Store.remove, Function.update_self, KeepsText]
      · simp only [Store.record, Store.remove, Function.update_of_ne hk]
        exact hkeeps k
  | compareSwap key seenVal newVal =>
    obtain ⟨hk, hseen, hnew⟩ := hop
    rcases swap_cases hserves hkeeps hk hseen hnew with
      ⟨_, r, hstep⟩ | ⟨heq, val, servers', r, hval, hnull, hstep, hserves'⟩
    · rw [hstep]
      exact h
    · obtain ⟨hiff, hne⟩ := hswap heq
      have hempty : val.isEmpty = newVal.isEmpty := by
        rw [hnull] at hiff
        cases newVal <;> simp_all
      obtain ⟨hw, hstands⟩ := standsFor_placeholder (.inr rfl) hnew
      rw [hstep]
      rw [swappedText_of_ne hne, hempty] at hserves'
      exact ⟨_, hserves', keeps_insert hkeeps ⟨hk, _, hw, hstands, rfl⟩⟩

/-- After any other swap of the stored value, the next lookup of the key is wrong. -/
theorem step_breaks {op : ZhtOp} (h : Preserves c servers s) (hop : op.Valued)
    (hswap : ¬c.SwapKeepsNull servers op) :
    ∃ key val, s.record op (c.step servers op).2 key = some val ∧
      (c.lookup (c.step servers op).1 key).2 ≠ some (0, val) := by
  obtain ⟨texts, hserves, hkeeps⟩ := id h
  cases op with
  | insert key val => exact absurd trivial hswap
  | lookup key => exact absurd trivial hswap
  | remove key => exact absurd trivial hswap
  | compareSwap key seenVal newVal =>
    obtain ⟨hk, hseen, hnew⟩ := hop
    rcases swap_cases hserves hkeeps hk hseen hnew with
      ⟨hdiff, _⟩ | ⟨heq, val, servers', r, hval, hnull, hstep, hserves'⟩
    · exact absurd (fun heq => absurd heq hdiff) hswap
    · have hlook := lookup_of_text hserves' hk (Store.insert_self ..)
        (nul_not_mem_heldPack hk (nul_not_mem_swappedText hnew))
      refine ⟨key, newVal, ?_, ?_⟩
      · rw [hstep]
        exact Store.insert_self ..
      · rw [hstep]
        have hstepLook : (c.lookup servers' key).2 = some (0, Cluster.extractValue
            (zpackToStr (heldPack key (swappedText newVal) val.isEmpty))) :=
          congrArg Prod.snd hlook
        rw [hstepLook]
        intro he
        have hextract := (Prod.mk.inj (Option.some.inj he)).2
        by_cases hne : newVal = "nonewval".toList
        · have hnil : swappedText newVal = [] := if_pos hne
          rw [hnil, Cluster.extractValue, strToZpack_heldPack_nil hk, hne] at hextract
          revert hextract
          decide
        · have hw := (standsFor_placeholder (.inr rfl) hnew : _ ∧ _).1
          rw [swappedText_of_ne hne, extractValue_heldPack hk hw] at hextract
          apply hswap
          intro _
          refine ⟨?_, hne⟩
          rw [hnull]
          cases val with
          | nil =>
            have hnewe : newVal = [] := hextract.symm
            simp [hnewe]
          | cons d val =>
            have hnonempty : newVal ≠ [] := by
              rintro rfl
              cases hextract
            simp [hnonempty]

end Steps

section Histories

variable {c : Cluster} {ops : List ZhtOp} {n : Nat} {op : ZhtOp}

/-- The servers after some of the requests of a history. -/
def Cluster.after (c : Cluster) (ops : List ZhtOp) (n : Nat) : Servers :=
  (c.run freshServers (ops.take n)).1

/-- The values written by some of the requests of a history. -/
def Cluster.last (c : Cluster) (ops : List ZhtOp) (n : Nat) : Store :=
  c.written freshServers (fun _ => none) (ops.take n)

theorem run_concat (c : Cluster) (servers : Servers) (ops : List ZhtOp) (op : ZhtOp) :
    (c.run servers (ops ++ [op])).1 = (c.step (c.run servers ops).1 op).1 := by
  induction ops generalizing servers with
  | nil => rfl
  | cons op' ops ih => exact ih (c.step servers op').1

theorem written_concat (c : Cluster) (servers : Servers) (s : Store) (ops : List ZhtOp)
    (op : ZhtOp) : c.written servers s (ops ++ [op]) =
      (c.written servers s ops).record op (c.step (c.run servers ops).1 op).2 := by
  induction ops generalizing servers s with
  | nil => rfl
  | cons op' ops ih => exact ih (c.step servers op').1 _

theorem take_succ_of_getElem (h : ops[n]? = some op) : ops.take (n + 1) = ops.take n ++ [op] := by
  rw [List.take_add_one, h, Option.toList_some]

theorem after_succ (h : ops[n]? = some op) :
    c.after ops (n + 1) = (c.step (c.after ops n) op).1 := by
  rw [Cluster.after, take_succ_of_getElem h, run_concat, Cluster.after]

theorem last_succ (h : ops[n]? = some op) :
    c.last ops (n + 1) = (c.last ops n).record op (c.step (c.after ops n) op).2 := by
  rw [Cluster.last, take_succ_of_getElem h, written_concat, Cluster.last, Cluster.after]

theorem preserves_after (hops : ∀ op ∈ ops, op.Valued)
    (h : ∀ m op, m < n → ops[m]? = some op → c.SwapKeepsNull (c.after ops m) op) :
    Preserves c (c.after ops n) (c.last ops n) := by
  induction n with
  | zero => exact ⟨_, serves_fresh c, fun _ => rfl⟩
  | succ n ih =>
    have hn := ih fun m op hm => h m op (Nat.lt_succ_of_lt hm)
    cases hop : ops[n]? with
    | none =>
      have htake : ops.take (n + 1) = ops.take n := by
        rw [List.take_add_one, hop, Option.toList_none, List.append_nil]
      rw [Cluster.after, Cluster.last, htake]
      exact hn
    | some op =>
      rw [after_succ hop, last_succ hop]
      exact step_preserves hn (hops op (List.mem_of_getElem? hop)) (h n op (Nat.lt_succ_self n) hop)

end Histories

/-- Every lookup, whenever it comes, yields the value last written exactly when every swap of a
stored value keeps its null flag right; the flags are then right too. -/
theorem lookups_exact_iff (c : Cluster) (ops : List ZhtOp) (hops : ∀ op ∈ ops, op.Valued) :
    ((∀ n key val, c.last ops n key = some val →
        (c.lookup (c.after ops n) key).2 = some (0, val)) ↔
      ∀ n op, ops[n]? = some op → c.SwapKeepsNull (c.after ops n) op) ∧
    ((∀ n op, ops[n]? = some op → c.SwapKeepsNull (c.after ops n) op) →
      ∀ n key val, c.last ops n key = some val →
        (c.stored (c.after ops n) key).valnull = some val.isEmpty) := by
  refine ⟨⟨fun h n => ?_, fun h n key val hval => ?_⟩, fun h n key val hval => ?_⟩
  · induction n using Nat.strong_induction_on with
    | _ n ih =>
      intro op hop
      have hpreserves := @preserves_after c ops n hops fun m op hm => ih m hm op
      by_contra hswap
      obtain ⟨key, val, hval, hne⟩ :=
        step_breaks hpreserves (hops op (List.mem_of_getElem? hop)) hswap
      rw [← last_succ hop] at hval
      rw [← after_succ hop] at hne
      exact hne (h (n + 1) key val hval)
  · exact congrArg Prod.snd ((preserves_after hops fun m op _ => h m op).lookup hval).1
  · exact ((preserves_after hops fun m op _ => h m op).lookup hval).2

instance (c : Cluster) (servers : Servers) : (op : ZhtOp) → Decidable (c.SwapKeepsNull servers op)
  | .insert _ _ => isTrue trivial
  | .lookup _ => isTrue trivial
  | .remove _ => isTrue trivial
  | .compareSwap _ _ _ => inferInstanceAs (Decidable (_ → (_ ↔ _) ∧ _))

theorem lookups_exact_pair :
    let ops : List ZhtOp := [.insert "a".toList [], .compareSwap "a".toList [] [],
      .insert "b".toList "1".toList, .compareSwap "b".toList "1".toList "2".toList]
    (pairCluster.lookup (pairCluster.after ops 4) "b".toList).2 = some (0, "2".toList) := by
  intro ops
  apply (lookups_exact_iff pairCluster ops (by decide)).1.2
  · intro n op hop
    have hn : n < 4 := (List.getElem?_eq_some_iff.1 hop).1
    have hswaps : ∀ n < 4, ∀ op ∈ ops[n]?,
        pairCluster.SwapKeepsNull (pairCluster.after ops n) op := by
      decide +kernel
    exact hswaps n hn op hop
  · decide +kernel

/-- A swap to the empty value leaves the placeholder for a lookup to find. -/
theorem lookup_placeholder :
    let ops : List ZhtOp := [.insert "a".toList "1".toList,
      .compareSwap "a".toList "1".toList []]
    (∀ op ∈ ops, op.Valued) ∧ pairCluster.last ops 2 "a".toList = some [] ∧
      (pairCluster.lookup (pairCluster.after ops 2) "a".toList).2 = some (0, "?".toList) ∧
      ¬∀ n key val, pairCluster.last ops n key = some val →
        (pairCluster.lookup (pairCluster.after ops n) key).2 = some (0, val) := by
  intro ops
  have hlast : pairCluster.last ops 2 "a".toList = some [] := by decide +kernel
  have hlook : (pairCluster.lookup (pairCluster.after ops 2) "a".toList).2 =
      some (0, "?".toList) := by
    decide +kernel
  refine ⟨by decide, hlast, hlook, fun h => ?_⟩
  have hright := h 2 "a".toList [] hlast
  rw [hlook] at hright
  revert hright
  decide

end MatrixZht
