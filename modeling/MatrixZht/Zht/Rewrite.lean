import MatrixZht.Zht.Log

namespace MatrixZht.DbTable
open Lib

/-- All nodes of the table, bucket by bucket. -/
def nodes (t : DbTable) : List DbPair := (List.range t.size).flatMap t.kvpairs

/-- The records a rewrite leaves in the file. -/
def writtenPairs (t : DbTable) : List KVPair :=
  (t.nodes.filter fun p => Written p).map DbPair.toKVPair

section Stream

variable {file : File Char}

theorem readTabLoop_of_getc_none (h : file.getc = (none, file)) (n : Nat) (buffer : Str) :
    readTabLoop n file buffer = (unterminated buffer, file) := by
  cases n with
  | zero => rw [readTabLoop, h]
  | succ n => rw [readTabLoop, h]

theorem readTabString_of_getc_none (h : file.getc = (none, file)) :
    readTabString file = (none, file) := by
  rw [readTabString, readTabLoop_of_getc_none h]
  rfl

end Stream

theorem putText_putText (f : File Char) (a b : Str) :
    putText (putText f a) b = putText f (a ++ b) := List.foldl_append.symm

section Scan

variable {hash : Str → Nat} {t : DbTable}

theorem rewriteChain_map (c : List DbPair) (f : File Char) :
    (rewriteChain c f).1.map DbPair.toKVPair = c.map DbPair.toKVPair := by
  induction c generalizing f with
  | nil => rfl
  | cons cur next ih =>
    rw [rewriteChain]
    split <;> simp [ih]

theorem rewriteChain_file {c : List DbPair} {f : File Char} (h : f.pos = f.content.length) :
    (rewriteChain c f).2 = putText f (fileText ((c.filter fun p => Written p).map
      DbPair.toKVPair)) := by
  induction c generalizing f with
  | nil => rfl
  | cons cur next ih =>
    have hpos : ∀ a, (putText f a).pos = (putText f a).content.length := by
      intro a
      rw [putText, File.puts_of_pos h]
      simp
    rw [rewriteChain]
    by_cases hw : Written cur
    · rw [if_pos hw, List.filter_cons_of_pos (by simpa using hw), List.map_cons, fileText_cons,
        ← putText_putText]
      exact ih (hpos _)
    · rw [if_neg hw, List.filter_cons_of_neg (by simpa using hw)]
      exact ih h

/-- What one rewritten bucket leaves: the chains in memory as they were, and its records at the end
of the file. -/
theorem foldl_rewrite (l : List Nat) {kvpairs : Nat → List DbPair} {f : File Char}
    (hl : l.Nodup) (h : f.pos = f.content.length) :
    let r := l.foldl
      (fun (r : (Nat → List DbPair) × File Char) i =>
        (Function.update r.1 i (rewriteChain (r.1 i) r.2).1, (rewriteChain (r.1 i) r.2).2))
      (kvpairs, f)
    List.map DbPair.toKVPair ∘ r.1 = List.map DbPair.toKVPair ∘ kvpairs ∧
      r.2 = putText f (fileText (((l.flatMap kvpairs).filter fun p => Written p).map
        DbPair.toKVPair)) := by
  induction l generalizing kvpairs f with
  | nil => exact ⟨rfl, rfl⟩
  | cons i l ih =>
    obtain ⟨hi, hl⟩ := List.nodup_cons.1 hl
    intro r
    have hfile := @rewriteChain_file (kvpairs i) f h
    have hpos : (rewriteChain (kvpairs i) f).2.pos =
        (rewriteChain (kvpairs i) f).2.content.length := by
      rw [hfile, putText, File.puts_of_pos h]
      simp
    obtain ⟨hmem, hrest⟩ :=
      @ih (Function.update kvpairs i (rewriteChain (kvpairs i) f).1) _ hl hpos
    constructor
    · refine hmem.trans ?_
      rw [Function.comp_update, rewriteChain_map]
      exact Function.update_eq_self i _
    · refine hrest.trans ?_
      have hsame : l.flatMap (Function.update kvpairs i (rewriteChain (kvpairs i) f).1) =
          l.flatMap kvpairs := by
        apply List.flatMap_congr
        intro j hj
        have hne : j ≠ i := fun he => hi (he ▸ hj)
        exact Function.update_of_ne hne ..
      rw [hsame, hfile, putText_putText, ← fileText_append, ← List.map_append,
        ← List.filter_append, List.flatMap_cons]

theorem rewriteScan_spec (t : DbTable) :
    t.rewriteScan.toNoVoHT = t.toNoVoHT ∧
      t.rewriteScan.swapFile.content = fileText t.writtenPairs ∧
      t.rewriteScan.dbfile = t.dbfile ∧ t.rewriteScan.rewriting = t.rewriting := by
  obtain ⟨hmem, hfile⟩ := @foldl_rewrite (List.range t.size) t.kvpairs t.swapFile.rewind.truncate
    List.nodup_range rfl
  refine ⟨?_, ?_, rfl, rfl⟩
  · exact congrArg (fun kvpairs => (⟨t.size, t.numEl, kvpairs⟩ : NoVoHT)) hmem
  · refine (congrArg File.content hfile).trans ?_
    rw [putText, File.puts_of_pos rfl]
    rfl

theorem merge_spec (h : t.dbfile.readable = false) :
    ∃ t', t.merge hash = some t' ∧ t'.toNoVoHT = t.toNoVoHT ∧ t'.dbfile = t.swapFile := by
  have hread : readTabString t.dbfile.rewind = (none, t.dbfile.rewind) :=
    readTabString_of_getc_none (File.getc_of_not_readable h)
  refine ⟨{ t with dbfile := t.swapFile, rewriting := false }, ?_, rfl, rfl⟩
  rw [merge, mergeLoop, hread]
  rfl

end Scan

/-- The pairs in memory. -/
def pairs (t : DbTable) : List KVPair := t.toNoVoHT.nodes

/-- The bindings whose node has its `diff` clear. -/
def clearBindings (hash : Str → Nat) (t : DbTable) : Store := fun k =>
  if k.isEmpty then none
  else ((findNode k (t.kvpairs (hash k % t.size))).filter fun cur => !cur.diff).map fun cur =>
    cur.val

def AllStorable (t : DbTable) : Prop := ∀ i, ∀ p ∈ t.kvpairs i, p.Storable

/-- The table while its file is with the rewriting thread. -/
structure Swapped (t : DbTable) (swapFile : File Char) : Prop where
  rewriting : t.rewriting = true
  unreadable : t.dbfile.readable = false
  swapFile : t.swapFile = swapFile

section Swap

variable {hash : Str → Nat} {resizeDue : Int → Nat → Bool} {t : DbTable} {file : File Char}

theorem swapped_writeFile (h : t.rewriting = false) : t.writeFile.Swapped t.dbfile := by
  rw [writeFile, h]
  exact ⟨rfl, rfl, rfl⟩

theorem write_readable (f : File Char) (p : DbPair) : (write f p).2.readable = f.readable :=
  File.puts_readable _

theorem Swapped.writeFile (h : t.Swapped file) : t.writeFile.Swapped file := by
  rw [DbTable.writeFile, if_pos h.rewriting]
  exact ⟨h.rewriting, h.unreadable, h.swapFile⟩

theorem Swapped.unlink (h : t.Swapped file) (loc : Nat) (chain : List DbPair) (k : Str)
    (toRem : List Nat) : (t.unlink loc chain k toRem).Swapped file := by
  have hgone : Swapped
      { t with
        kvpairs := Function.update t.kvpairs loc chain
        numEl := t.numEl - 1
        nRem := t.nRem + 1
        dbfile := if t.rewriting then logrm t.dbfile k toRem else mark t.dbfile toRem } file := by
    refine ⟨h.rewriting, ?_, h.swapFile⟩
    rw [if_pos h.rewriting]
    exact (File.puts_readable _).trans h.unreadable
  rw [DbTable.unlink]
  dsimp only
  split
  · exact hgone.writeFile
  · exact hgone

/-- No operation reaches the file that is being rewritten. -/
theorem Swapped.step (h : t.Swapped file) (op : NoVoHT.Op × Bool) :
    (t.step hash resizeDue op).1.Swapped file := by
  obtain ⟨op, diff⟩ := op
  cases op with
  | put k v =>
    obtain ⟨u, hu, hs⟩ : ∃ u : DbTable,
        (if resizeDue t.numEl t.size then t.resize hash (t.size * 2) else t) = u ∧
          u.Swapped file := by
      refine ⟨_, rfl, ?_⟩
      split
      · exact ⟨h.rewriting, h.unreadable, h.swapFile⟩
      · exact h
    simp only [DbTable.step, put, hu]
    split
    · exact ⟨hs.rewriting, (write_readable _ _).trans hs.unreadable, hs.swapFile⟩
    · exact ⟨hs.rewriting,
        ((write_readable _ _).trans (File.putAt_readable _ _)).trans hs.unreadable, hs.swapFile⟩
  | append k aval =>
    simp only [DbTable.step, append]
    split
    · exact ⟨h.rewriting, (File.puts_readable _).trans h.unreadable, h.swapFile⟩
    · exact ⟨h.rewriting, (write_readable _ _).trans h.unreadable, h.swapFile⟩
  | remove k =>
    simp only [DbTable.step, remove]
    split
    · exact h
    · split
      · exact h.unlink ..
      · split
        · exact h
        · exact h.unlink ..
  | get k => exact h

theorem Swapped.run (h : t.Swapped file) (ops : List (NoVoHT.Op × Bool)) :
    (t.run hash resizeDue ops).Swapped file := by
  induction ops generalizing t with
  | nil => exact h
  | cons op ops ih => exact ih (h.step op)

end Swap

section Bindings

variable {hash : Str → Nat} {resizeDue : Int → Nat → Bool} {t : DbTable} {m : Store}

theorem findNode_eq_some {k : Str} {c : List DbPair} {p : DbPair}
    (hc : (c.map fun p => p.key).Nodup) : findNode k c = some p ↔ p ∈ c ∧ p.key = k := by
  constructor
  · exact fun h => ⟨mem_of_findNode h, key_of_findNode h⟩
  · rintro ⟨hp, rfl⟩
    cases h : findNode p.key c with
    | none => exact absurd rfl (findNode_eq_none.1 h p hp)
    | some q =>
      have hq := List.inj_on_of_nodup_map hc (mem_of_findNode h) hp (key_of_findNode h)
      rw [hq]

theorem holds_get (ht : t.toNoVoHT.WF hash) (hs : t.AllStorable) :
    t.toNoVoHT.Holds hash (t.get hash) := by
  intro k v
  by_cases hk : k = []
  · subst hk
    have hget : t.get hash [] = none := rfl
    rw [hget]
    constructor
    · exact fun h => nomatch h
    · intro h
      obtain ⟨p, hp, he⟩ := List.mem_map.1 h
      exact absurd (congrArg KVPair.key he) (hs _ p hp).key.ne_nil
  · rw [get_toNoVoHT]
    exact NoVoHT.getChain_eq_some hk (ht.nodup _)

def StoreOk (m : Store) : Prop := ∀ k v, m k = some v → KVPair.Storable ⟨k, v⟩

theorem storeOk_insert (h : StoreOk m) {k v : Str} (hp : KVPair.Storable ⟨k, v⟩) :
    StoreOk (m.insert k v) := by
  intro k' v' hm
  by_cases hk : k' = k
  · subst hk
    rw [Store.insert_self] at hm
    exact Option.some.inj hm ▸ hp
  · rw [Store.insert_of_ne hk] at hm
    exact h k' v' hm

theorem storeOk_step (h : StoreOk m) {op : NoVoHT.Op} (hop : OpOk op) :
    StoreOk (NoVoHT.mapStep m op).1 := by
  cases op with
  | put k v => exact storeOk_insert h hop
  | append k aval =>
    apply storeOk_insert h
    cases hk : m k with
    | none => exact hop
    | some old => exact ⟨hop.key, (h k old hk).val.joined hop.val, hop.live⟩
  | remove k =>
    rw [NoVoHT.mapStep]
    split
    · intro k' v hm
      simp only [Store.remove] at hm
      by_cases hk : k' = k
      · subst hk
        rw [Function.update_self] at hm
        cases hm
      · rw [Function.update_of_ne hk] at hm
        exact h k' v hm
    · exact h
  | get k => exact h

theorem run_refines {ops : List (NoVoHT.Op × Bool)} (hops : ∀ op ∈ ops, OpOk op.1)
    (ht : t.toNoVoHT.WF hash) (hm : t.toNoVoHT.Holds hash m) (hs : StoreOk m) :
    (t.run hash resizeDue ops).toNoVoHT.WF hash ∧
      (t.run hash resizeDue ops).toNoVoHT.Holds hash (NoVoHT.mapRun m (ops.map Prod.fst)).1 ∧
      StoreOk (NoVoHT.mapRun m (ops.map Prod.fst)).1 := by
  induction ops generalizing t m with
  | nil => exact ⟨ht, hm, hs⟩
  | cons op ops ih =>
    have hop := hops op List.mem_cons_self
    obtain ⟨ht', hm'⟩ := @step_refines hash resizeDue t m ht hm op hop.key_ne
    exact ih (fun op hop => hops op (List.mem_cons_of_mem _ hop)) ht' hm' (storeOk_step hs hop)

theorem storeOk_of_holds (hm : t.toNoVoHT.Holds hash m) (hs : t.AllStorable) : StoreOk m := by
  intro k v h
  obtain ⟨p, hp, he⟩ := List.mem_map.1 ((hm k v).1 h)
  exact he ▸ hs _ p hp

theorem allStorable_of_holds (ht : t.toNoVoHT.WF hash) (hm : t.toNoVoHT.Holds hash m)
    (hs : StoreOk m) : t.AllStorable := by
  intro i p hp
  have hp' := hp
  rw [← home ht hp] at hp'
  exact hs p.key p.val ((hm p.key p.val).2 (List.mem_map_of_mem hp'))

theorem mem_nodes (ht : t.toNoVoHT.WF hash) {p : DbPair} : p ∈ t.nodes ↔ t.Node hash p := by
  rw [nodes, List.mem_flatMap]
  constructor
  · rintro ⟨i, _, hp⟩
    rwa [Node, home ht hp]
  · intro hp
    exact ⟨_, List.mem_range.2 (Nat.mod_lt _ ht.size_pos), hp⟩

/-- A rewrite writes the bindings whose node has its `diff` clear. -/
theorem mem_writtenPairs (ht : t.toNoVoHT.WF hash) (hs : t.AllStorable) (k v : Str) :
    ⟨k, v⟩ ∈ t.writtenPairs ↔ t.clearBindings hash k = some v := by
  have hnode : ∀ p : DbPair, t.Node hash p → (Written p ↔ p.diff = false) := by
    intro p hp
    have hst := hs _ p hp
    exact ⟨fun h => h.2.2, fun h => ⟨hst.key.ne_nil, hst.val.ne_nil, h⟩⟩
  have hfind : ∀ p : DbPair, findNode k (t.kvpairs (hash k % t.size)) = some p ↔
      p ∈ t.kvpairs (hash k % t.size) ∧ p.key = k := fun p =>
    findNode_eq_some (nodup_keys ht _)
  rw [writtenPairs, List.mem_map]
  constructor
  · rintro ⟨p, hp, he⟩
    obtain ⟨hp, hw⟩ := List.mem_filter.1 hp
    rw [mem_nodes ht] at hp
    have hdiff := (hnode p hp).1 (of_decide_eq_true hw)
    have hk : p.key = k := congrArg KVPair.key he
    have hv : p.val = v := congrArg KVPair.val he
    have hne : k.isEmpty = false := by
      rw [List.isEmpty_eq_false_iff, ← hk]
      exact (hs _ p hp).key.ne_nil
    rw [Node, hk] at hp
    rw [clearBindings, hne, (hfind p).2 ⟨hp, hk⟩]
    simp [hdiff, hv]
  · intro h
    rw [clearBindings] at h
    split at h
    · cases h
    · obtain ⟨p, hp, hv⟩ := Option.map_eq_some_iff.1 h
      obtain ⟨hp, hdiff⟩ := Option.filter_eq_some_iff.1 hp
      obtain ⟨hmem, hk⟩ := (hfind p).1 hp
      have hn : t.Node hash p := by rwa [Node, hk]
      refine ⟨p, List.mem_filter.2 ⟨(mem_nodes ht).2 hn, ?_⟩, ?_⟩
      · exact decide_eq_true ((hnode p hn).2 (by simpa using hdiff))
      · rw [← hk, ← hv]

end Bindings

/-- The file holds exactly the pairs in memory. -/
def Saved (t : DbTable) : Prop := (liveRecords t.dbfile.content).Perm t.pairs

section Saved

variable {hash : Str → Nat} {t u : DbTable} {m : Store}

theorem pairs_eq (t : DbTable) : t.pairs = t.nodes.map DbPair.toKVPair :=
  List.map_flatMap.symm

theorem liveRecords_writtenPairs (hs : t.AllStorable) :
    liveRecords (fileText t.writtenPairs) = t.writtenPairs := by
  apply liveRecords_fileText
  intro q hq
  obtain ⟨p, hp, rfl⟩ := List.mem_map.1 hq
  obtain ⟨i, _, hp⟩ := List.mem_flatMap.1 (List.mem_filter.1 hp).1
  exact hs i p hp

theorem perm_writtenPairs (ht : t.toNoVoHT.WF hash) (hs : t.AllStorable)
    (hu : u.toNoVoHT.WF hash) (hm : u.toNoVoHT.Holds hash m) :
    t.writtenPairs.Perm u.pairs ↔ m = t.clearBindings hash := by
  have hmem : ∀ k v, ⟨k, v⟩ ∈ u.pairs ↔ m k = some v := fun k v =>
    (NoVoHT.mem_nodes hu).trans (hm k v).symm
  have hpairs : t.pairs.Nodup := (NoVoHT.nodes_nodup ht).of_map
  have hlater : u.pairs.Nodup := (NoVoHT.nodes_nodup hu).of_map
  have hwritten : t.writtenPairs.Nodup := by
    rw [pairs_eq] at hpairs
    exact hpairs.sublist ((List.filter_sublist).map _)
  rw [List.perm_ext_iff_of_nodup hwritten hlater]
  constructor
  · intro h
    funext k
    apply Option.ext
    intro v
    rw [← hmem k v, ← h, mem_writtenPairs ht hs]
  · rintro rfl ⟨k, v⟩
    rw [hmem k v, mem_writtenPairs ht hs]

end Saved

/-- A rewrite around which the table is updated saves exactly when the updates after its scan take
the table back to what the scan wrote. -/
theorem rewrite_saved_iff (hash : Str → Nat) (resizeDue : Int → Nat → Bool) (t₀ : DbTable)
    (ht : t₀.toNoVoHT.WF hash) (hs : t₀.AllStorable) (hidle : t₀.rewriting = false)
    (ops₁ ops₂ : List (NoVoHT.Op × Bool)) (hops₁ : ∀ op ∈ ops₁, OpOk op.1)
    (hops₂ : ∀ op ∈ ops₂, OpOk op.1) :
    let t₁ := t₀.writeFile.run hash resizeDue ops₁
    ∃ t, (t₁.rewriteScan.run hash resizeDue ops₂).merge hash = some t ∧
      (t.Saved ↔
        (NoVoHT.mapRun (t₁.get hash) (ops₂.map Prod.fst)).1 = t₁.clearBindings hash) := by
  intro t₁
  have hm₀ := holds_get ht hs
  have hstart := writeFile_toNoVoHT t₀
  obtain ⟨ht₁, hm₁, hs₁⟩ := @run_refines hash resizeDue t₀.writeFile _ _ hops₁ (hstart ▸ ht)
    (hstart ▸ hm₀) (storeOk_of_holds hm₀ hs)
  have hst₁ : t₁.AllStorable := allStorable_of_holds ht₁ hm₁ hs₁
  obtain ⟨hmem, hfile, hdb, hrw⟩ := rewriteScan_spec t₁
  have hswap₁ : t₁.Swapped t₀.dbfile := (swapped_writeFile hidle).run ops₁
  have hscan : t₁.rewriteScan.Swapped t₁.rewriteScan.swapFile :=
    ⟨hrw.trans hswap₁.rewriting, hdb ▸ hswap₁.unreadable, rfl⟩
  have hswap₂ := @Swapped.run hash resizeDue _ _ hscan ops₂
  have hget := holds_get ht₁ hst₁
  obtain ⟨ht₂, hm₂, _⟩ := @run_refines hash resizeDue t₁.rewriteScan _ _ hops₂ (hmem ▸ ht₁)
    (hmem ▸ hget) (storeOk_of_holds hget hst₁)
  obtain ⟨t, hmerge, htable, hdbfile⟩ := @merge_spec hash _ hswap₂.unreadable
  refine ⟨t, hmerge, ?_⟩
  have hcontent : liveRecords t.dbfile.content = t₁.writtenPairs := by
    rw [hdbfile, hswap₂.swapFile, hfile, liveRecords_writtenPairs hst₁]
  rw [Saved, hcontent]
  exact perm_writtenPairs ht₁ hst₁ (htable ▸ ht₂) (htable ▸ hm₂)

theorem rewrite_saved_iff_undone :
    let ops₁ : List (NoVoHT.Op × Bool) := [(.put "a".toList "1".toList, false)]
    let ops₂ : List (NoVoHT.Op × Bool) := [(.put "b".toList "2".toList, false),
      (.remove "b".toList, false)]
    let t₁ := ({ size := 1, magicNumber := -1 } : DbTable).writeFile.run (fun _ => 0)
      (fun _ _ => false) ops₁
    ∃ t, (t₁.rewriteScan.run (fun _ => 0) (fun _ _ => false) ops₂).merge (fun _ => 0) = some t ∧
      (t.Saved ↔ (NoVoHT.mapRun (t₁.get fun _ => 0) (ops₂.map Prod.fst)).1 =
        t₁.clearBindings fun _ => 0) := by
  intro ops₁ ops₂
  apply rewrite_saved_iff (fun _ => 0) (fun _ _ => false) { size := 1, magicNumber := -1 }
  · exact NoVoHT.wf_empty (fun _ => 0) (Nat.le_refl 1)
  · exact fun _ _ hp => absurd hp List.not_mem_nil
  · rfl
  · decide
  · decide

/-- What is put after the scan is in the log alone, which the merge cannot read. -/
theorem not_rewrite_saved_put :
    let ops₂ : List (NoVoHT.Op × Bool) := [(.put "b".toList "2".toList, false)]
    let t₁ := ({ size := 1, magicNumber := -1 } : DbTable).writeFile
    ∃ t, (t₁.rewriteScan.run (fun _ => 0) (fun _ _ => false) ops₂).merge (fun _ => 0) = some t ∧
      ¬t.Saved := by
  intro ops₂ t₁
  refine ⟨_, rfl, ?_⟩
  intro h
  have hlength := h.length_eq
  revert hlength
  decide

end MatrixZht.DbTable
