import MatrixZht.Zht.Rewrite

namespace MatrixZht.DbTable
open Lib

/-- A table constructed on a file, once the rewrite that this starts is over. -/
def restart (hash : Str → Nat) (resizeDue : Int → Nat → Bool) (diff : Str → Bool) (file : Str)
    (initSize : Nat) (gcnum : Int) : Option DbTable :=
  (initializeTable hash resizeDue diff file initSize gcnum).bind (rewriteFile hash)

section Load

variable {hash : Str → Nat} {resizeDue : Int → Nat → Bool} {diff : Str → Bool} {t t' : DbTable}
  {f : File Char} {k v : Str}

theorem readTabLoop_clean (n : Nat) {buffer s : Str} (hb : '\xff' ∉ buffer)
    (h : (readTabLoop n f buffer).1 = some s) : '\xff' ∉ s := by
  have hstop : ∀ {buffer : Str}, '\xff' ∉ buffer → unterminated buffer = some s →
      '\xff' ∉ s := by
    intro buffer hb h
    rw [unterminated] at h
    split at h
    · cases h
    · exact Option.some.inj h ▸ hb
  induction n generalizing f buffer with
  | zero => exact hstop hb h
  | succ n ih =>
    rw [readTabLoop] at h
    split at h
    · exact hstop hb h
    · next c f' _ =>
      split at h
      · exact hstop hb h
      · next hc =>
        split at h
        · exact Option.some.inj h ▸ hb
        · apply ih _ h
          simp [hb, Ne.symm hc]

theorem readTabString_clean {s : Str} (h : (readTabString f).1 = some s) : '\xff' ∉ s := by
  obtain ⟨w, hw, rfl⟩ := Option.map_eq_some_iff.1 h
  intro hmem
  exact readTabLoop_clean 300 List.not_mem_nil hw ((List.takeWhile_sublist _).mem hmem)

theorem readTabLoop_field {s rest : Str} (hr : f.readable = true)
    (h : f.content.drop f.pos = s ++ '\t' :: rest) (htab : '\t' ∉ s) (hff : '\xff' ∉ s) {n : Nat}
    (hn : s.length < n) (buffer : Str) :
    readTabLoop n f buffer = (some (buffer ++ s), { f with pos := f.pos + s.length + 1 }) := by
  induction s generalizing f n buffer with
  | nil =>
    obtain ⟨n, rfl⟩ := Nat.exists_eq_add_of_lt hn
    rw [readTabLoop, File.getc_of_drop hr h]
    simp
  | cons c s ih =>
    simp only [List.mem_cons, not_or] at htab hff
    obtain ⟨n, rfl⟩ : ∃ n', n = n' + 1 := Nat.exists_eq_succ_of_ne_zero (by omega)
    have hdrop : f.content.drop (f.pos + 1) = s ++ '\t' :: rest := by
      rw [← List.drop_drop, h]
      rfl
    have hstep := @ih { f with pos := f.pos + 1 } hr hdrop htab.2 hff.2 n
      (by simpa using hn) (buffer ++ [c])
    rw [readTabLoop, File.getc_of_drop hr h]
    simp only [Ne.symm hff.1, Ne.symm htab.1, if_false, hstep, List.append_assoc,
      List.cons_append, List.nil_append, List.length_cons]
    simp only [Nat.add_comm, Nat.add_left_comm]

theorem readTabString_field {s rest : Str} (hr : f.readable = true)
    (h : f.content.drop f.pos = s ++ '\t' :: rest) (hs : IsFileField s) (hff : '\xff' ∉ s)
    (hn : s.length < 300) :
    readTabString f = (some s, { f with pos := f.pos + s.length + 1 }) := by
  rw [readTabString, readTabLoop_field hr h hs.no_tab hff hn, List.nil_append]
  exact congrArg (fun s => (some s, _)) (cstr_eq hs.no_nul)

theorem put_dbfile_end (t : DbTable) (k v : Str) (d : Bool) :
    (t.put hash resizeDue k v d).1.dbfile.content.length ≤
      (t.put hash resizeDue k v d).1.dbfile.pos := by
  have hwrite : ∀ f p, (write f p).2.content.length ≤ (write f p).2.pos := by
    intro f p
    rw [write, putText, File.seekEnd_puts, List.length_append]
  rw [put]
  dsimp only
  split <;> exact hwrite _ _

theorem readLoop_at_end (h : t.dbfile.content.length ≤ t.dbfile.pos) (fuel : Nat) :
    readLoop hash resizeDue diff (fuel + 1) t = some t := by
  rw [readLoop, readTabString_of_getc_none (File.getc_of_end h)]

/-- The loader puts at most one record: what `put` writes moves the position to the end. -/
theorem readLoop_cases {fuel : Nat} (h : readLoop hash resizeDue diff fuel t = some t') :
    (∃ dbfile, t' = { t with dbfile }) ∨
      ∃ key val dbfile, '\xff' ∉ key ∧ '\xff' ∉ val ∧
        t' = (put hash resizeDue { t with dbfile } key val (diff key)).1 := by
  induction fuel generalizing t with
  | zero => cases h
  | succ fuel ih =>
    rw [readLoop] at h
    split at h
    · exact .inl ⟨_, (Option.some.inj h).symm⟩
    · next key dbfile hkey =>
      split at h
      · exact .inl ⟨_, (Option.some.inj h).symm⟩
      · next val dbfile' hval =>
        dsimp only at h
        split at h
        · refine .inr ⟨key, val, dbfile', readTabString_clean (congrArg Prod.fst hkey),
            readTabString_clean (congrArg Prod.fst hval), ?_⟩
          cases fuel with
          | zero => cases h
          | succ fuel =>
            rw [readLoop_at_end (put_dbfile_end ..)] at h
            exact (Option.some.inj h).symm
        · exact @ih { t with dbfile := dbfile' } h

theorem put_empty (h : ∀ i, t.kvpairs i = []) (k v : Str) (d : Bool) {i : Nat} {p : DbPair}
    (hp : p ∈ (t.put hash resizeDue k v d).1.kvpairs i) :
    p.toKVPair = ⟨k, v⟩ ∧ p.diff = d := by
  obtain ⟨u, hu, hempty⟩ : ∃ u : DbTable,
      (if resizeDue t.numEl t.size then t.resize hash (t.size * 2) else t) = u ∧
        ∀ i, u.kvpairs i = [] := by
    refine ⟨_, rfl, ?_⟩
    split
    · intro i
      have hlink := NoVoHT.foldl_link (fun cur : DbPair => hash cur.key % (t.size * 2))
        ((List.range t.size).flatMap t.kvpairs) (fun _ => []) i
      rw [List.foldl_flatMap] at hlink
      refine hlink.trans ?_
      simp [h]
    · exact h
  simp only [put, hu, hempty, findNode, List.find?_nil, List.nil_append] at hp
  by_cases hi : i = hash k % u.size
  · subst hi
    rw [Function.update_self, List.mem_singleton] at hp
    rw [hp]
    exact ⟨rfl, rfl⟩
  · rw [Function.update_of_ne hi, hempty] at hp
    cases hp

theorem put_empty_written (h : ∀ i, t.kvpairs i = []) (k v : Str) {d : Bool} (hd : d = true) :
    (t.put hash resizeDue k v d).1.writtenPairs = [] := by
  rw [writtenPairs, List.map_eq_nil_iff, List.filter_eq_nil_iff]
  intro q hq
  obtain ⟨i, _, hq⟩ := List.mem_flatMap.1 hq
  simp [Written, (put_empty h k v d hq).2, hd]

theorem finish_spec (hidle : t.rewriting = false) :
    ∃ t', t.writeFile.rewriteFile hash = some t' ∧ t'.toNoVoHT = t.toNoVoHT ∧
      t'.dbfile.content = fileText t.writtenPairs := by
  obtain ⟨hmem, hfile, hdb, _⟩ := rewriteScan_spec t.writeFile
  have hsame : t.writeFile.writtenPairs = t.writtenPairs := by
    rw [writeFile, hidle]
    rfl
  obtain ⟨t', hmerge, htable, hdbfile⟩ := @merge_spec hash t.writeFile.rewriteScan
    (hdb ▸ (swapped_writeFile hidle).unreadable)
  refine ⟨t', hmerge, htable.trans (hmem.trans (writeFile_toNoVoHT t)), ?_⟩
  rw [hdbfile, hfile, hsame]

theorem put_rewriting (t : DbTable) (k v : Str) (d : Bool) :
    (t.put hash resizeDue k v d).1.rewriting = t.rewriting := by
  obtain ⟨u, hu, hrw⟩ : ∃ u : DbTable,
      (if resizeDue t.numEl t.size then t.resize hash (t.size * 2) else t) = u ∧
        u.rewriting = t.rewriting := by
    refine ⟨_, rfl, ?_⟩
    split <;> rfl
  simp only [put, hu]
  split <;> exact hrw

end Load

/-- A restart on the file of these pairs finds them all, and so does the next one. -/
def Restores (hash : Str → Nat) (resizeDue : Int → Nat → Bool) (diff : Str → Bool)
    (initSize : Nat) (gcnum : Int) (pairs : List KVPair) : Prop :=
  ∃ t, restart hash resizeDue diff (fileText pairs) initSize gcnum = some t ∧
    (∀ k v, t.get hash k = some v ↔ ⟨k, v⟩ ∈ pairs) ∧
    ∀ p ∈ pairs, p ∈ liveRecords t.dbfile.content

section Restart

variable {hash : Str → Nat} {resizeDue : Int → Nat → Bool} {diff : Str → Bool} {initSize : Nat}
  {gcnum : Int} {pairs : List KVPair} {file : Str} {t t' : DbTable} {p : KVPair}

theorem get_congr (h : t'.toNoVoHT = t.toNoVoHT) (k : Str) : t'.get hash k = t.get hash k := by
  rw [get_toNoVoHT, get_toNoVoHT, h]

theorem mem_of_get {k v : Str} (h : t.get hash k = some v) :
    ∃ q ∈ t.kvpairs (hash k % t.size), q.toKVPair = ⟨k, v⟩ := by
  rw [get] at h
  split at h
  · cases h
  · obtain ⟨q, hq, hv⟩ := Option.map_eq_some_iff.1 h
    refine ⟨q, mem_of_findNode hq, ?_⟩
    rw [KVPair.eq_mk_iff]
    exact ⟨hv.symm, key_of_findNode hq⟩

theorem restart_of_load
    (h : readLoop hash resizeDue diff (file.length + 1)
      { size := initSize, magicNumber := gcnum, dbfile := { content := file } } = some t)
    (hidle : t.rewriting = false) :
    ∃ t', restart hash resizeDue diff file initSize gcnum = some t' ∧
      t'.toNoVoHT = t.toNoVoHT ∧ t'.dbfile.content = fileText t.writtenPairs := by
  obtain ⟨t', hfinish, hspec⟩ := @finish_spec hash t hidle
  refine ⟨t', ?_, hspec⟩
  rw [restart, initializeTable, readFile, h]
  exact hfinish

theorem load_of_restart (h : restart hash resizeDue diff file initSize gcnum = some t') :
    ∃ t, readLoop hash resizeDue diff (file.length + 1)
      { size := initSize, magicNumber := gcnum, dbfile := { content := file } } = some t := by
  rw [restart, initializeTable, readFile] at h
  obtain ⟨u, hu, _⟩ := Option.bind_eq_some_iff.1 h
  obtain ⟨t, ht, _⟩ := Option.map_eq_some_iff.1 hu
  exact ⟨t, ht⟩

/-- What survives is at most one pair, without the byte that ends a read and with `diff` clear. -/
theorem Restores.single (h : Restores hash resizeDue diff initSize gcnum pairs)
    (hnodup : (pairs.map KVPair.key).Nodup) :
    pairs = [] ∨ ∃ p, pairs = [p] ∧ '\xff' ∉ p.key ∧ '\xff' ∉ p.val ∧ diff p.key = false := by
  obtain ⟨t', hrestart, hget, hlive⟩ := h
  obtain ⟨t, hload⟩ := load_of_restart hrestart
  rcases readLoop_cases hload with ⟨dbfile, rfl⟩ | ⟨key, val, dbfile, hkey, hval, rfl⟩
  · obtain ⟨u, hu, hmem, _⟩ := restart_of_load hload rfl
    obtain rfl : u = t' := Option.some.inj (hu.symm.trans hrestart)
    left
    rw [List.eq_nil_iff_forall_not_mem]
    intro p hp
    have hp' := (hget p.key p.val).2 hp
    rw [get_congr hmem] at hp'
    obtain ⟨q, hq, _⟩ := mem_of_get hp'
    cases hq
  · obtain ⟨u, hu, hmem, hfile⟩ := restart_of_load hload (put_rewriting ..)
    obtain rfl : u = t' := Option.some.inj (hu.symm.trans hrestart)
    have honly : ∀ p ∈ pairs, p = ⟨key, val⟩ := by
      intro p hp
      have hp' := (hget p.key p.val).2 hp
      rw [get_congr hmem] at hp'
      obtain ⟨q, hq, he⟩ := mem_of_get hp'
      exact he.symm.trans (put_empty (fun _ => rfl) key val _ hq).1
    cases pairs with
    | nil => exact .inl rfl
    | cons p rest =>
      have hp := honly p List.mem_cons_self
      have hrest : rest = [] := by
        rw [List.eq_nil_iff_forall_not_mem]
        intro q hq
        have hq' := honly q (List.mem_cons_of_mem _ hq)
        have hne := (List.nodup_cons.1 hnodup).1
        rw [hp, ← hq'] at hne
        exact hne (List.mem_map_of_mem hq)
      subst hrest
      right
      refine ⟨p, rfl, hp ▸ hkey, hp ▸ hval, ?_⟩
      by_contra hdiff
      have hset : diff key = true := by
        rw [hp] at hdiff
        simpa using hdiff
      have hlp := hlive p List.mem_cons_self
      rw [hfile, put_empty_written (fun _ => rfl) key val hset] at hlp
      cases hlp

theorem load_empty : readLoop hash resizeDue diff (([] : Str).length + 1)
    { size := initSize, magicNumber := gcnum, dbfile := { content := [] } } =
      some { size := initSize, magicNumber := gcnum } := by
  apply readLoop_at_end
  exact Nat.le_refl 0

theorem restart_empty : restart hash resizeDue diff [] initSize gcnum =
    some { size := initSize, magicNumber := gcnum } := by
  have hfold : ∀ l : List Nat, l.foldl
      (fun (r : (Nat → List DbPair) × File Char) i =>
        (Function.update r.1 i (rewriteChain (r.1 i) r.2).1, (rewriteChain (r.1 i) r.2).2))
      (fun _ => [], {}) = (fun _ => [], {}) := by
    intro l
    induction l with
    | nil => rfl
    | cons i l ih =>
      have hstep : Function.update (fun _ => []) i (rewriteChain [] {}).1 =
          fun _ : Nat => ([] : List DbPair) := Function.update_eq_self i _
      rw [List.foldl_cons, hstep]
      exact ih
  have hscan : rewriteScan (writeFile { size := initSize, magicNumber := gcnum }) =
      writeFile { size := initSize, magicNumber := gcnum } :=
    congrArg (fun r : (Nat → List DbPair) × File Char =>
      ({ size := initSize, kvpairs := r.1, magicNumber := gcnum, rewriting := true,
         dbfile := { readable := false }, swapFile := r.2 } : DbTable))
      (hfold (List.range initSize))
  rw [restart, initializeTable, readFile, load_empty, Option.map_some, Option.bind_some,
    rewriteFile, hscan]
  rfl

theorem Restores.nil : Restores hash resizeDue diff initSize gcnum [] := by
  refine ⟨_, restart_empty, ?_, fun p hp => absurd hp List.not_mem_nil⟩
  intro k v
  simp [get, findNode]

theorem readLoop_single (hp : p.Storable) (hkey : p.key.length < 300) (hval : p.val.length < 300)
    (hkff : '\xff' ∉ p.key) (hvff : '\xff' ∉ p.val) :
    ∃ dbfile, readLoop hash resizeDue diff ((fileText [p]).length + 1)
      { size := initSize, magicNumber := gcnum, dbfile := { content := fileText [p] } } =
        some (put hash resizeDue { size := initSize, magicNumber := gcnum, dbfile } p.key p.val
          (diff p.key)).1 := by
  have htext : fileText [p] = p.key ++ '\t' :: (p.val ++ ['\t']) := by
    rw [fileText_cons, recordText_eq hp.key hp.val]
    exact List.append_nil _
  have hk := @readTabString_field { content := fileText [p] } _ _ rfl htext hp.key hkff hkey
  have hdrop : (fileText [p]).drop (0 + p.key.length + 1) = p.val ++ '\t' :: [] := by
    rw [htext, Nat.zero_add, ← List.drop_drop, List.drop_left]
    rfl
  have hv := @readTabString_field { content := fileText [p], pos := 0 + p.key.length + 1 } _ _ rfl
    hdrop hp.val hvff hval
  obtain ⟨fuel, hfuel⟩ : ∃ fuel, (fileText [p]).length = fuel + 1 := by
    apply Nat.exists_eq_succ_of_ne_zero
    rw [htext]
    simp
  refine ⟨{ content := fileText [p], pos := 0 + p.key.length + 1 + p.val.length + 1 }, ?_⟩
  rw [hfuel, readLoop]
  simp only [hk, hv]
  have hlive : p.key.head? ≠ some '~' := hp.live
  rw [if_pos hlive]
  exact readLoop_at_end (put_dbfile_end ..) fuel

theorem Restores.of_single (hsize : 1 ≤ initSize) (hp : p.Storable) (hkey : p.key.length < 300)
    (hval : p.val.length < 300) (hkff : '\xff' ∉ p.key) (hvff : '\xff' ∉ p.val)
    (hdiff : diff p.key = false) : Restores hash resizeDue diff initSize gcnum [p] := by
  obtain ⟨dbfile, hload⟩ := @readLoop_single hash resizeDue diff initSize gcnum p hp hkey hval hkff
    hvff
  obtain ⟨t, hrestart, hmem, hfile⟩ := restart_of_load hload (put_rewriting ..)
  have htable := @put_toNoVoHT hash resizeDue
    { size := initSize, magicNumber := gcnum, dbfile } p.key p.val (diff p.key)
  obtain ⟨_, ht, hm⟩ := NoVoHT.put_spec resizeDue (NoVoHT.wf_empty hash hsize)
    (NoVoHT.holds_empty hash initSize) p.key p.val
  generalize hu : (put hash resizeDue { size := initSize, magicNumber := gcnum, dbfile } p.key p.val
    (diff p.key)).1 = u at *
  have hone : ∀ i, ∀ q ∈ u.kvpairs i, q.toKVPair = p ∧ q.diff = false := by
    intro i q hq
    rw [← hu] at hq
    exact hdiff ▸ put_empty (fun _ => rfl) p.key p.val _ hq
  have hwf : u.toNoVoHT.WF hash := htable ▸ ht
  have hholds : u.toNoVoHT.Holds hash (Store.insert (fun _ => none) p.key p.val) := htable ▸ hm
  have hst : u.AllStorable := fun i q hq => (hone i q hq).1 ▸ hp
  refine ⟨t, hrestart, ?_, ?_⟩
  · intro k v
    have hbinds := holds_get hwf hst k v
    rw [← hholds k v] at hbinds
    rw [get_congr hmem, hbinds, List.mem_singleton, @eq_comm _ (KVPair.mk k v), KVPair.eq_mk_iff]
    by_cases hk : k = p.key
    · rw [hk, Store.insert_self, Option.some.injEq]
      simp [eq_comm]
    · rw [Store.insert_of_ne hk]
      simp [Ne.symm hk]
  · intro q hq
    rw [List.mem_singleton.1 hq, hfile, liveRecords_writtenPairs hst]
    obtain ⟨n, hn, he⟩ := List.mem_map.1 ((hholds p.key p.val).1 (Store.insert_self ..))
    have hkey : n.key = p.key := congrArg KVPair.key he
    have hmem : n ∈ u.nodes := by
      rw [mem_nodes hwf, Node, hkey]
      exact hn
    have hwritten : Written n := ⟨(hst _ n hn).key.ne_nil, (hst _ n hn).val.ne_nil, (hone _ n hn).2⟩
    exact List.mem_map.2 ⟨n, List.mem_filter.2 ⟨hmem, decide_eq_true hwritten⟩, he⟩

end Restart

/-- A restart keeps the contents of a table exactly when there is at most one pair, without the byte
`0xFF` and in a node whose `diff` is clear. -/
theorem restores_iff (hash : Str → Nat) (resizeDue : Int → Nat → Bool) (diff : Str → Bool)
    (initSize : Nat) (gcnum : Int) (hsize : 1 ≤ initSize) (pairs : List KVPair)
    (hnodup : (pairs.map KVPair.key).Nodup)
    (hpairs : ∀ p ∈ pairs, p.Storable ∧ p.key.length < 300 ∧ p.val.length < 300) :
    Restores hash resizeDue diff initSize gcnum pairs ↔
      pairs = [] ∨
        ∃ p, pairs = [p] ∧ '\xff' ∉ p.key ∧ '\xff' ∉ p.val ∧ diff p.key = false := by
  constructor
  · exact fun h => h.single hnodup
  · rintro (rfl | ⟨p, rfl, hkey, hval, hdiff⟩)
    · exact Restores.nil
    · obtain ⟨hp, hk, hv⟩ := hpairs p List.mem_cons_self
      exact Restores.of_single hsize hp hk hv hkey hval hdiff

theorem restores_iff_one :
    Restores (fun _ => 0) (fun _ _ => false) (fun _ => false) 1 (-1)
        [⟨"a".toList, "1".toList⟩] ↔
      [(⟨"a".toList, "1".toList⟩ : KVPair)] = [] ∨
        ∃ p, [(⟨"a".toList, "1".toList⟩ : KVPair)] = [p] ∧ '\xff' ∉ p.key ∧ '\xff' ∉ p.val ∧
          false = false := by
  apply restores_iff (fun _ => 0) (fun _ _ => false) (fun _ => false) 1 (-1)
  · decide
  · decide
  · decide

/-- Of two pairs, the second is not read any more. -/
theorem not_restores_two :
    ¬Restores (fun _ => 0) (fun _ _ => false) (fun _ => false) 1 (-1)
      [⟨"a".toList, "1".toList⟩, ⟨"b".toList, "2".toList⟩] := by
  intro h
  rcases h.single (by decide) with h | ⟨p, h, _⟩
  · cases h
  · cases h

end MatrixZht.DbTable
