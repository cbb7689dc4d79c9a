import MatrixZht.Zht.DbFile

namespace MatrixZht
open Lib

/-- The records of a file with the offsets they start at. -/
def spots : Nat → List KVPair → List (Nat × KVPair)
  | _, [] => []
  | off, r :: rs => (off, r) :: spots (off + (recordText r).length) rs

/-- The offsets of the records of a key. -/
def keySpots (k : Str) (rs : List KVPair) : List Nat :=
  ((spots 0 rs).filter fun s => s.2.key = k).map Prod.fst

/-- The values of the records of a key, joined. -/
def keyValue (k : Str) (rs : List KVPair) : Str :=
  [':'].intercalate ((rs.filter fun r => r.key = k).map KVPair.val)

/-- Overwrites the first byte of a record of key `k`. -/
def giveUp (k : Str) (r : KVPair) : KVPair := if r.key = k then ⟨'~' :: r.key.tail, r.val⟩ else r

section Spots

variable {k k' : Str} {off i : Nat} {r : KVPair} {rs rs' : List KVPair}

theorem spots_append (off : Nat) (rs rs' : List KVPair) :
    spots off (rs ++ rs') = spots off rs ++ spots (off + (fileText rs).length) rs' := by
  induction rs generalizing off with
  | nil => rfl
  | cons r rs ih =>
    rw [List.cons_append, spots, ih, fileText_cons, List.length_append, spots, ← Nat.add_assoc,
      List.cons_append]

theorem le_of_mem_spots (h : (i, r) ∈ spots off rs) : off ≤ i := by
  induction rs generalizing off with
  | nil => cases h
  | cons r' rs ih =>
    rcases List.mem_cons.1 h with he | hr
    · exact Nat.le_of_eq (congrArg Prod.fst he).symm
    · have := ih hr
      omega

theorem length_recordText_pos (r : KVPair) : 0 < (recordText r).length := by
  simp only [recordText, terminate_cons, List.length_append, List.length_cons]
  omega

theorem lt_of_mem_spots (h : (i, r) ∈ spots off rs) : i < off + (fileText rs).length := by
  induction rs generalizing off with
  | nil => cases h
  | cons r' rs ih =>
    rw [fileText_cons, List.length_append]
    rcases List.mem_cons.1 h with he | hr
    · have hi : i = off := congrArg Prod.fst he
      have := length_recordText_pos r'
      omega
    · have := ih hr
      omega

theorem mem_keySpots : i ∈ keySpots k rs ↔ ∃ r, (i, r) ∈ spots 0 rs ∧ r.key = k := by
  simp [keySpots]

theorem keySpots_append (k : Str) (rs : List KVPair) (r : KVPair) :
    keySpots k (rs ++ [r]) =
      keySpots k rs ++ if r.key = k then [(fileText rs).length] else [] := by
  rw [keySpots, keySpots, spots_append, List.filter_append, List.map_append, spots, spots]
  by_cases h : r.key = k <;> simp [h]

theorem spots_map {g : KVPair → KVPair}
    (hg : ∀ r ∈ rs, (recordText (g r)).length = (recordText r).length) :
    spots off (rs.map g) = (spots off rs).map fun s => (s.1, g s.2) := by
  induction rs generalizing off with
  | nil => rfl
  | cons r rs ih =>
    obtain ⟨hr, hrs⟩ := List.forall_mem_cons.1 hg
    rw [List.map_cons, spots, hr, ih hrs, spots, List.map_cons]

theorem mem_of_mem_spots (h : (i, r) ∈ spots off rs) : r ∈ rs := by
  induction rs generalizing off with
  | nil => cases h
  | cons r' rs ih =>
    rcases List.mem_cons.1 h with he | hr
    · cases he
      exact List.mem_cons_self
    · exact List.mem_cons_of_mem _ (ih hr)

theorem keyValue_append_of_ne (h : r.key ≠ k) (rs : List KVPair) :
    keyValue k (rs ++ [r]) = keyValue k rs := by
  simp [keyValue, h]

end Spots

/-- The records of a log, all of them readable. -/
def LogFields (rs : List KVPair) : Prop := ∀ r ∈ rs, IsFileField r.key ∧ IsFileField r.val

section GiveUp

variable {k k' : Str} {off : Nat} {r : KVPair} {rs : List KVPair} {ps : List Nat}

theorem IsFileField.marked {s : Str} (h : IsFileField s) : IsFileField ('~' :: s.tail) where
  ne_nil := List.cons_ne_nil '~' s.tail
  no_tab := by
    simp only [List.mem_cons, not_or]
    exact ⟨by decide, fun ht => h.no_tab (List.mem_of_mem_tail ht)⟩
  no_nul := by
    simp only [List.mem_cons, not_or]
    exact ⟨by decide, fun ht => h.no_nul (List.mem_of_mem_tail ht)⟩

theorem IsFileField.joined {s v : Str} (hs : IsFileField s) (hv : IsFileField v) :
    IsFileField (s ++ ':' :: v) where
  ne_nil := by simp
  no_tab := by simp [hs.no_tab, hv.no_tab]
  no_nul := by simp [hs.no_nul, hv.no_nul]

theorem giveUp_fields (h : IsFileField r.key ∧ IsFileField r.val) (k : Str) :
    IsFileField (giveUp k r).key ∧ IsFileField (giveUp k r).val := by
  unfold giveUp
  split
  · exact ⟨h.1.marked, h.2⟩
  · exact h

theorem LogFields.map_giveUp (h : LogFields rs) (k : Str) : LogFields (rs.map (giveUp k)) := by
  intro r hr
  obtain ⟨r', hr', rfl⟩ := List.mem_map.1 hr
  exact giveUp_fields (h r' hr') k

theorem recordText_giveUp (h : IsFileField r.key ∧ IsFileField r.val) (hk : r.key = k) :
    recordText (giveUp k r) = '~' :: (recordText r).tail := by
  have hf := giveUp_fields h k
  rw [recordText_eq hf.1 hf.2, recordText_eq h.1 h.2, giveUp, if_pos hk,
    List.tail_append_of_ne_nil h.1.ne_nil]
  rfl

theorem length_recordText_giveUp (h : IsFileField r.key ∧ IsFileField r.val) (k : Str) :
    (recordText (giveUp k r)).length = (recordText r).length := by
  by_cases hk : r.key = k
  · have hpos := length_recordText_pos r
    rw [recordText_giveUp h hk, List.length_cons, List.length_tail]
    omega
  · rw [giveUp, if_neg hk]

theorem giveUp_key_ne (hk : k.head? ≠ some '~') (r : KVPair) : (giveUp k r).key ≠ k := by
  unfold giveUp
  split
  · intro he
    rw [← he] at hk
    exact hk rfl
  · assumption

theorem giveUp_key_iff (hk' : k'.head? ≠ some '~') (hne : k' ≠ k) (r : KVPair) :
    (giveUp k r).key = k' ↔ r.key = k' := by
  unfold giveUp
  split
  · next h =>
    constructor
    · intro he
      rw [← he] at hk'
      exact absurd rfl hk'
    · exact fun he => absurd (he.symm.trans h) hne
  · exact Iff.rfl

theorem keySpots_giveUp (h : LogFields rs) (hk' : k'.head? ≠ some '~') (hne : k' ≠ k) :
    keySpots k' (rs.map (giveUp k)) = keySpots k' rs := by
  rw [keySpots, keySpots, spots_map fun r hr => length_recordText_giveUp (h r hr) k]
  rw [List.filter_map, List.map_map]
  simp only [Function.comp_def, giveUp_key_iff hk' hne]

theorem keyValue_giveUp (hk' : k'.head? ≠ some '~') (hne : k' ≠ k) :
    keyValue k' (rs.map (giveUp k)) = keyValue k' rs := by
  have hval : ∀ r, (giveUp k r).val = r.val := by
    intro r
    unfold giveUp
    split <;> rfl
  rw [keyValue, keyValue, List.filter_map, List.map_map]
  simp only [Function.comp_def, giveUp_key_iff hk' hne, hval]

theorem mapIdx_ite_eq_self {P : Nat → Prop} [DecidablePred P] {text : Str}
    (h : ∀ i, i < text.length → ¬P i) :
    text.mapIdx (fun i c => if P i then '~' else c) = text := by
  apply List.ext_getElem?
  intro i
  rw [List.getElem?_mapIdx]
  by_cases hi : i < text.length
  · simp [h i hi]
  · simp [List.getElem?_eq_none (Nat.le_of_not_lt hi)]

theorem mapIdx_fileText (h : LogFields rs)
    (hps : ∀ i, off ≤ i → (i ∈ ps ↔ ∃ r, (i, r) ∈ spots off rs ∧ r.key = k)) :
    (fileText rs).mapIdx (fun i c => if off + i ∈ ps then '~' else c) =
      fileText (rs.map (giveUp k)) := by
  induction rs generalizing off with
  | nil => rfl
  | cons r rs ih =>
    obtain ⟨hr, hrs⟩ := List.forall_mem_cons.1 h
    have hpos := length_recordText_pos r
    -- past its first byte, no record starts inside the text of the first one
    have hinner : ∀ i, 0 < i → i < (recordText r).length → off + i ∉ ps := by
      intro i hi hlt hmem
      obtain ⟨r', hr', _⟩ := (hps (off + i) (by omega)).1 hmem
      rcases List.mem_cons.1 hr' with he | hr'
      · have hi' : off + i = off := congrArg Prod.fst he
        omega
      · have := le_of_mem_spots hr'
        omega
    have hhead : off ∈ ps ↔ r.key = k := by
      rw [hps off (Nat.le_refl off)]
      constructor
      · rintro ⟨r', hr', hk⟩
        rcases List.mem_cons.1 hr' with he | hr'
        · cases he
          exact hk
        · have := le_of_mem_spots hr'
          omega
      · exact fun hk => ⟨r, List.mem_cons_self, hk⟩
    have htail : (fileText rs).mapIdx
        (fun i c => if off + (i + (recordText r).length) ∈ ps then '~' else c) =
          fileText (rs.map (giveUp k)) := by
      have ih := @ih (off + (recordText r).length) hrs (by
        intro i hi
        rw [hps i (by omega)]
        constructor
        · rintro ⟨r', hr', hk⟩
          rcases List.mem_cons.1 hr' with he | hr'
          · cases he
            omega
          · exact ⟨r', hr', hk⟩
        · rintro ⟨r', hr', hk⟩
          exact ⟨r', List.mem_cons_of_mem _ hr', hk⟩)
      rw [← ih]
      simp only [Nat.add_comm, Nat.add_left_comm]
    rw [fileText_cons, List.mapIdx_append, htail, List.map_cons, fileText_cons]
    congr 1
    obtain ⟨c, rest, hc⟩ := List.exists_cons_of_length_pos hpos
    have hrest : rest.mapIdx (fun i c => if off + (i + 1) ∈ ps then '~' else c) = rest := by
      apply mapIdx_ite_eq_self
      intro i hi
      apply hinner
      · exact Nat.succ_pos i
      · rw [hc, List.length_cons]
        exact Nat.succ_lt_succ hi
    rw [hc, List.mapIdx_cons, hrest, Nat.add_zero]
    by_cases hk : r.key = k
    · rw [if_pos (hhead.2 hk), recordText_giveUp hr hk, hc]
      rfl
    · rw [if_neg (fun hm => hk (hhead.1 hm)), giveUp, if_neg hk, hc]

end GiveUp

/-- What a node of the table knows of its records. -/
structure DbPair.Recorded (rs : List KVPair) (p : DbPair) : Prop where
  storable : p.Storable
  positions : p.positions.reverse = keySpots p.key rs
  value : keyValue p.key rs = p.val

namespace DbTable

def Node (hash : Str → Nat) (t : DbTable) (p : DbPair) : Prop := p ∈ t.kvpairs (hash p.key % t.size)

/-- The file is a sequence of records, each node knows the live ones of its key, and there are no
other live ones. -/
structure Logged (hash : Str → Nat) (t : DbTable) (rs : List KVPair) : Prop where
  content : t.dbfile.content = fileText rs
  fields : LogFields rs
  nodes : ∀ p, t.Node hash p → p.Recorded rs
  present : ∀ r ∈ rs, r.Live → ∃ p, t.Node hash p ∧ p.key = r.key

section Nodes

variable {hash : Str → Nat} {t t' : DbTable} {c c' : List DbPair} {k : Str} {p q n cur : DbPair}

theorem nodup_keys (ht : t.toNoVoHT.WF hash) (i : Nat) :
    ((t.kvpairs i).map fun p => p.key).Nodup := by
  have h : ((t.kvpairs i).map DbPair.toKVPair |>.map KVPair.key).Nodup := ht.nodup i
  rwa [List.map_map] at h

theorem home (ht : t.toNoVoHT.WF hash) {i : Nat} (hp : p ∈ t.kvpairs i) :
    hash p.key % t.size = i :=
  ht.home i p.toKVPair (List.mem_map_of_mem hp)

theorem nodup_keys_cons :
    (((q :: c).map fun p => p.key).Nodup) ↔
      (∀ p ∈ c, p.key ≠ q.key) ∧ (c.map fun p => p.key).Nodup := by
  simp [List.nodup_cons]

theorem mem_setNode (hc : (c.map fun p => p.key).Nodup) (h : findNode n.key c = some cur) :
    p ∈ setNode n c ↔ p = n ∨ (p ∈ c ∧ p.key ≠ n.key) := by
  induction c with
  | nil => cases h
  | cons q c ih =>
    obtain ⟨hne, hc⟩ := nodup_keys_cons.1 hc
    rw [setNode]
    by_cases hk : n.key = q.key
    · rw [if_pos hk, hk]
      grind
    · rw [findNode_cons_of_ne hk] at h
      rw [if_neg hk, List.mem_cons, ih hc h]
      grind

theorem node_update {P : Prop} (hsize : t'.size = t.size)
    (hkv : t'.kvpairs = Function.update t.kvpairs (hash k % t.size) c)
    (hP : P → p.key = k)
    (hc : p ∈ c ↔ P ∨ (p ∈ t.kvpairs (hash k % t.size) ∧ p.key ≠ k)) :
    t'.Node hash p ↔ P ∨ (t.Node hash p ∧ p.key ≠ k) := by
  unfold Node
  rw [hsize, hkv]
  by_cases hi : hash p.key % t.size = hash k % t.size
  · rw [hi, Function.update_self, hc]
  · have hk : p.key ≠ k := fun he => hi (he ▸ rfl)
    have hnP : ¬P := fun h => hk (hP h)
    rw [Function.update_of_ne hi]
    simp [hk, hnP]

end Nodes

section Write

variable {k v : Str} {rs base : List KVPair} {ps : List Nat} {f : File Char} {n cur : DbPair}

/-- A log from which at most records of key `k` were given up. -/
structure Kept (k : Str) (rs base : List KVPair) : Prop where
  fields : LogFields base
  spots : ∀ k', k' ≠ k → k'.head? ≠ some '~' → keySpots k' base = keySpots k' rs
  value : ∀ k', k' ≠ k → k'.head? ≠ some '~' → keyValue k' base = keyValue k' rs
  keys : ∀ r ∈ base, r.Live → ∃ r' ∈ rs, r'.Live ∧ r'.key = r.key

theorem Kept.refl (h : LogFields rs) (k : Str) : Kept k rs rs :=
  ⟨h, fun _ _ _ => rfl, fun _ _ _ => rfl, fun r hr hl => ⟨r, hr, hl, rfl⟩⟩

theorem Kept.of_giveUp (h : LogFields rs) (k : Str) : Kept k rs (rs.map (giveUp k)) where
  fields := h.map_giveUp k
  spots := fun _ hne hl => keySpots_giveUp h hl hne
  value := fun _ hne hl => keyValue_giveUp hl hne
  keys := by
    intro r hr hl
    obtain ⟨r', hr', rfl⟩ := List.mem_map.1 hr
    refine ⟨r', hr', ?_⟩
    unfold giveUp at hl ⊢
    split at hl
    · exact absurd rfl hl
    · next hk => exact ⟨hl, by rw [if_neg hk]⟩

theorem mark_content (hf : f.content = fileText rs) (h : LogFields rs)
    (hps : ps.reverse = keySpots k rs) :
    (mark f ps).content = fileText (rs.map (giveUp k)) := by
  have hmem : ∀ i, i ∈ ps ↔ ∃ r, (i, r) ∈ spots 0 rs ∧ r.key = k := by
    intro i
    rw [← mem_keySpots, ← hps, List.mem_reverse]
  have hlt : ∀ i ∈ ps, i < f.content.length := by
    intro i hi
    obtain ⟨r, hr, _⟩ := (hmem i).1 hi
    have := lt_of_mem_spots hr
    rw [hf]
    omega
  rw [mark, File.putAt_content hlt, hf, ← mapIdx_fileText h fun i _ => hmem i]
  simp

theorem write_fst (f : File Char) (n : DbPair) :
    (write f n).1 = { n with positions := [f.content.length] } := rfl

theorem write_content (f : File Char) (n : DbPair) :
    (write f n).2.content = f.content ++ recordText n.toKVPair := by
  rw [write, putText, File.seekEnd_puts]

theorem writeAppend_content (f : File Char) (n : DbPair) (v : Str) :
    (writeAppend f n v).2.content = f.content ++ recordText ⟨n.key, v⟩ := by
  rw [writeAppend, putText, File.seekEnd_puts]

theorem keyValue_of_not_mem (h : ∀ r ∈ rs, r.key ≠ k) (v : Str) :
    keySpots k (rs ++ [⟨k, v⟩]) = [(fileText rs).length] ∧ keyValue k (rs ++ [⟨k, v⟩]) = v := by
  have hfilter : (rs.filter fun r => r.key = k) = [] := by
    simpa using h
  have hspots : keySpots k rs = [] := by
    rw [List.eq_nil_iff_forall_not_mem]
    intro i hi
    obtain ⟨r, hr, hk⟩ := mem_keySpots.1 hi
    exact h r (mem_of_mem_spots hr) hk
  constructor
  · rw [keySpots_append, hspots]
    simp
  · simp [keyValue, hfilter]

theorem intercalate_concat {vals : List Str} (h : vals ≠ []) (v : Str) :
    [':'].intercalate (vals ++ [v]) = [':'].intercalate vals ++ ':' :: v := by
  induction vals with
  | nil => exact absurd rfl h
  | cons w vals ih =>
    cases vals with
    | nil => simp
    | cons w' vals =>
      have hne := List.cons_ne_nil w' vals
      rw [List.cons_append, List.intercalate_cons_of_ne_nil (by simp), ih hne,
        List.intercalate_cons_of_ne_nil hne]
      simp

theorem keyValue_append_self (h : keyValue k rs ≠ []) (v : Str) :
    keyValue k (rs ++ [⟨k, v⟩]) = keyValue k rs ++ ':' :: v := by
  have hne : (rs.filter fun r => r.key = k).map KVPair.val ≠ [] := by
    intro he
    rw [keyValue, he] at h
    exact h rfl
  rw [keyValue, List.filter_append, List.map_append]
  simp only [List.filter_cons, List.filter_nil, decide_true, if_true, List.map_cons, List.map_nil]
  exact intercalate_concat hne v

end Write

section Steps

variable {hash : Str → Nat} {resizeDue : Int → Nat → Bool} {t t' : DbTable}
  {rs base : List KVPair} {k v : Str} {p n cur : DbPair}

theorem Kept.recorded (h : Kept k rs base) (hp : p.Recorded rs) (hne : p.key ≠ k) :
    p.Recorded base where
  storable := hp.storable
  positions := (hp.positions).trans (h.spots _ hne hp.storable.live).symm
  value := (h.value _ hne hp.storable.live).trans hp.value

theorem recorded_append_of_ne (hp : p.Recorded base) (hne : p.key ≠ k) (v : Str) :
    p.Recorded (base ++ [⟨k, v⟩]) where
  storable := hp.storable
  positions := by
    rw [keySpots_append, if_neg (Ne.symm hne), List.append_nil, hp.positions]
  value := by
    rw [← hp.value]
    exact keyValue_append_of_ne (Ne.symm hne) base

theorem Logged.set (h : t.Logged hash rs) (hb : Kept k rs base)
    (hnode : ∀ p, t'.Node hash p ↔ p = n ∨ (t.Node hash p ∧ p.key ≠ k)) (hk : n.key = k)
    (hn : n.Recorded (base ++ [⟨k, v⟩])) (hv : IsFileField v)
    (hcontent : t'.dbfile.content = fileText base ++ recordText ⟨k, v⟩) :
    t'.Logged hash (base ++ [⟨k, v⟩]) where
  content := by
    rw [hcontent, fileText_append]
    simp [fileText]
  fields := by
    intro r hr
    rcases List.mem_append.1 hr with hr | hr
    · exact hb.fields r hr
    · rw [List.mem_singleton.1 hr]
      exact ⟨hk ▸ hn.storable.key, hv⟩
  nodes := by
    intro p hp
    rcases (hnode p).1 hp with rfl | ⟨hp, hne⟩
    · exact hn
    · exact recorded_append_of_ne (hb.recorded (h.nodes p hp) hne) hne v
  present := by
    intro r hr hl
    by_cases hrk : r.key = k
    · exact ⟨n, (hnode n).2 (.inl rfl), hk.trans hrk.symm⟩
    · rcases List.mem_append.1 hr with hr | hr
      · obtain ⟨r', hr', hl', hkey⟩ := hb.keys r hr hl
        obtain ⟨p, hp, hpk⟩ := h.present r' hr' hl'
        refine ⟨p, (hnode p).2 (.inr ⟨hp, ?_⟩), hpk.trans hkey⟩
        rw [hpk, hkey]
        exact hrk
      · rw [List.mem_singleton.1 hr] at hrk
        exact absurd rfl hrk

theorem Logged.drop (h : t.Logged hash rs) (hk : k.head? ≠ some '~')
    (hnode : ∀ p, t'.Node hash p ↔ t.Node hash p ∧ p.key ≠ k)
    (hcontent : t'.dbfile.content = fileText (rs.map (giveUp k))) :
    t'.Logged hash (rs.map (giveUp k)) where
  content := hcontent
  fields := h.fields.map_giveUp k
  nodes := by
    intro p hp
    obtain ⟨hp, hne⟩ := (hnode p).1 hp
    exact (Kept.of_giveUp h.fields k).recorded (h.nodes p hp) hne
  present := by
    intro r hr hl
    obtain ⟨r', hr', hl', hkey⟩ := (Kept.of_giveUp h.fields k).keys r hr hl
    obtain ⟨p, hp, hpk⟩ := h.present r' hr' hl'
    refine ⟨p, (hnode p).2 ⟨hp, ?_⟩, hpk.trans hkey⟩
    obtain ⟨r'', _, rfl⟩ := List.mem_map.1 hr
    rw [hpk, hkey]
    exact giveUp_key_ne hk r''

theorem Logged.key_absent (h : t.Logged hash rs) (hk : k.head? ≠ some '~')
    (hnone : findNode k (t.kvpairs (hash k % t.size)) = none) : ∀ r ∈ rs, r.key ≠ k := by
  intro r hr he
  subst he
  obtain ⟨p, hp, hpk⟩ := h.present r hr hk
  rw [Node, hpk] at hp
  exact findNode_eq_none.1 hnone p hp hpk

end Steps

section Operations

variable {hash : Str → Nat} {resizeDue : Int → Nat → Bool} {t : DbTable} {rs : List KVPair}
  {k v : Str}

theorem node_resize (ht : t.toNoVoHT.WF hash) (ns : Nat) (p : DbPair) :
    (t.resize hash ns).Node hash p ↔ t.Node hash p := by
  have hlink := NoVoHT.foldl_link (fun cur : DbPair => hash cur.key % ns)
    ((List.range t.size).flatMap t.kvpairs) (fun _ => []) (hash p.key % ns)
  rw [List.append_nil, List.foldl_flatMap] at hlink
  have hkv : (t.resize hash ns).kvpairs (hash p.key % ns) = _ := hlink
  have hsize : (t.resize hash ns).size = ns := rfl
  rw [Node, hsize, hkv, List.mem_reverse, List.mem_filter, List.mem_flatMap]
  constructor
  · rintro ⟨⟨i, _, hp⟩, _⟩
    rwa [Node, home ht hp]
  · intro hp
    exact ⟨⟨_, List.mem_range.2 (Nat.mod_lt _ ht.size_pos), hp⟩, decide_eq_true rfl⟩

theorem logged_resize (h : t.Logged hash rs) (ht : t.toNoVoHT.WF hash) (ns : Nat) :
    (t.resize hash ns).Logged hash rs where
  content := h.content
  fields := h.fields
  nodes := fun p hp => h.nodes p ((node_resize ht ns p).1 hp)
  present := by
    intro r hr hl
    obtain ⟨p, hp, hk⟩ := h.present r hr hl
    exact ⟨p, (node_resize ht ns p).2 hp, hk⟩

theorem Logged.of_findNode (h : t.Logged hash rs) {cur : DbPair}
    (hcur : findNode k (t.kvpairs (hash k % t.size)) = some cur) :
    cur.key = k ∧ cur.Recorded rs := by
  have hk := key_of_findNode hcur
  have hmem := mem_of_findNode hcur
  rw [← hk] at hmem
  exact ⟨hk, h.nodes cur hmem⟩

theorem Logged.added (h : t.Logged hash rs) (hp : KVPair.Storable ⟨k, v⟩)
    (hf : findNode k (t.kvpairs (hash k % t.size)) = none) (diff : Bool) {c : List DbPair}
    (hc : ∀ p, p ∈ c ↔ p = (write t.dbfile { key := k, val := v, positions := [], diff }).1 ∨
      p ∈ t.kvpairs (hash k % t.size)) {t' : DbTable}
    (hsize : t'.size = t.size)
    (hkv : t'.kvpairs = Function.update t.kvpairs (hash k % t.size) c)
    (hfile : t'.dbfile = (write t.dbfile { key := k, val := v, positions := [], diff }).2) :
    t'.Logged hash (rs ++ [⟨k, v⟩]) := by
  obtain ⟨hspots, hval⟩ := keyValue_of_not_mem (h.key_absent hp.live hf) v
  have hnode : ∀ p, t'.Node hash p ↔
      p = (write t.dbfile { key := k, val := v, positions := [], diff }).1 ∨
        (t.Node hash p ∧ p.key ≠ k) := by
    intro p
    apply node_update hsize hkv
    · intro he
      rw [he]
      rfl
    · rw [hc]
      exact or_congr_right ⟨fun hm => ⟨hm, findNode_eq_none.1 hf p hm⟩, fun hm => hm.1⟩
  apply h.set (Kept.refl h.fields k) hnode rfl
  · refine ⟨hp, ?_, hval⟩
    rw [write_fst, h.content, List.reverse_singleton]
    exact hspots.symm
  · exact hp.val
  · rw [hfile, write_content, h.content]

theorem Logged.replaced (h : t.Logged hash rs) (ht : t.toNoVoHT.WF hash) {base : List KVPair}
    {n cur : DbPair} (hn : n.Recorded (base ++ [⟨k, v⟩])) (hk : n.key = k) (hb : Kept k rs base)
    (hf : findNode k (t.kvpairs (hash k % t.size)) = some cur) (hv : IsFileField v)
    {t' : DbTable} (hsize : t'.size = t.size)
    (hkv : t'.kvpairs = Function.update t.kvpairs (hash k % t.size)
      (setNode n (t.kvpairs (hash k % t.size))))
    (hcontent : t'.dbfile.content = fileText base ++ recordText ⟨k, v⟩) :
    t'.Logged hash (base ++ [⟨k, v⟩]) := by
  subst hk
  have hnode : ∀ p, t'.Node hash p ↔ p = n ∨ (t.Node hash p ∧ p.key ≠ n.key) := by
    intro p
    apply node_update hsize hkv
    · exact fun he => he ▸ rfl
    · exact mem_setNode (nodup_keys ht _) hf
  exact h.set hb hnode rfl hn hv hcontent

theorem logged_put (h : t.Logged hash rs) (ht : t.toNoVoHT.WF hash) (hp : KVPair.Storable ⟨k, v⟩)
    (diff : Bool) : ∃ rs', (t.put hash resizeDue k v diff).1.Logged hash rs' := by
  obtain ⟨u, hu, hlog, hwf⟩ : ∃ u : DbTable,
      (if resizeDue t.numEl t.size then t.resize hash (t.size * 2) else t) = u ∧
        u.Logged hash rs ∧ u.toNoVoHT.WF hash := by
    refine ⟨_, rfl, ?_⟩
    split
    · have hns : 0 < t.size * 2 := Nat.mul_pos ht.size_pos (by decide)
      exact ⟨logged_resize h ht _, resize_toNoVoHT t (t.size * 2) ▸ NoVoHT.resize_wf ht hns⟩
    · exact ⟨h, ht⟩
  simp only [put, hu]
  cases hf : findNode k (u.kvpairs (hash k % u.size)) with
  | none =>
    refine ⟨_, hlog.added hp hf diff ?_ rfl rfl rfl⟩
    intro p
    rw [List.mem_append, List.mem_singleton, or_comm]
  | some cur =>
    obtain ⟨rfl, hcur⟩ := hlog.of_findNode hf
    have hmark := mark_content hlog.content hlog.fields hcur.positions
    have habsent : ∀ r ∈ rs.map (giveUp cur.key), r.key ≠ cur.key := by
      intro r hr
      obtain ⟨r', _, rfl⟩ := List.mem_map.1 hr
      exact giveUp_key_ne hp.live r'
    obtain ⟨hspots, hval⟩ := keyValue_of_not_mem habsent v
    have hrec : (write (mark u.dbfile cur.positions) { cur with val := v }).1.Recorded
        (rs.map (giveUp cur.key) ++ [⟨cur.key, v⟩]) := by
      refine ⟨hp, ?_, hval⟩
      rw [write_fst, hmark, List.reverse_singleton]
      exact hspots.symm
    refine ⟨_, hlog.replaced hwf hrec rfl (Kept.of_giveUp hlog.fields _) hf hp.val rfl rfl ?_⟩
    exact (write_content _ _).trans (congrArg (· ++ _) hmark)

theorem logged_append (h : t.Logged hash rs) (ht : t.toNoVoHT.WF hash)
    (hp : KVPair.Storable ⟨k, v⟩) (diff : Bool) :
    ∃ rs', (t.append hash k v diff).1.Logged hash rs' := by
  simp only [append]
  cases hf : findNode k (t.kvpairs (hash k % t.size)) with
  | none =>
    refine ⟨_, h.added hp hf diff ?_ rfl rfl rfl⟩
    exact fun p => List.mem_cons
  | some cur =>
    obtain ⟨rfl, hcur⟩ := h.of_findNode hf
    have hrec : (writeAppend t.dbfile { cur with val := cur.val ++ ':' :: v } v).1.Recorded
        (rs ++ [⟨cur.key, v⟩]) := by
      refine ⟨⟨hp.key, ?_, hp.live⟩, ?_, ?_⟩
      · exact hcur.storable.val.joined hp.val
      · have hspots := keySpots_append cur.key rs ⟨cur.key, v⟩
        rw [if_pos rfl, ← hcur.positions, ← h.content, ← List.reverse_cons] at hspots
        exact hspots.symm
      · have hval := hcur.storable.val.ne_nil
        rw [← hcur.value] at hval
        exact (keyValue_append_self hval v).trans (congrArg (· ++ ':' :: v) hcur.value)
    refine ⟨_, h.replaced ht hrec rfl (Kept.refl h.fields _) hf hp.val rfl rfl ?_⟩
    exact (writeAppend_content _ _ v).trans (congrArg (· ++ _) h.content)

/-- Whether a `remove` finds its key in the first node of a bucket, or finds none. -/
def AtFirst (hash : Str → Nat) (t : DbTable) : NoVoHT.Op → Prop
  | .remove k => ∀ p ∈ (t.kvpairs (hash k % t.size)).tail, p.key ≠ k
  | _ => True

instance (hash : Str → Nat) (t : DbTable) : (op : NoVoHT.Op) → Decidable (t.AtFirst hash op)
  | .remove k => inferInstanceAs (Decidable (∀ p ∈ (t.kvpairs (hash k % t.size)).tail, p.key ≠ k))
  | .put .. | .append .. | .get _ => .isTrue trivial

theorem logged_remove (h : t.Logged hash rs) (ht : t.toNoVoHT.WF hash)
    (hl : k.head? ≠ some '~') (hrw : t.rewriting = false) (hfirst : t.AtFirst hash (.remove k))
    (hrw' : (t.remove hash k).1.rewriting = false) :
    ∃ rs', (t.remove hash k).1.Logged hash rs' := by
  have hnext : ∀ next, (∀ p ∈ next, p.key ≠ k) → unlinkNext k next = none := by
    intro next hne
    induction next with
    | nil => rfl
    | cons r rest ih =>
      obtain ⟨hr, hrest⟩ := List.forall_mem_cons.1 hne
      rw [unlinkNext, if_neg (Ne.symm hr), ih hrest]
      rfl
  cases hc : t.kvpairs (hash k % t.size) with
  | nil =>
    have hstay : (t.remove hash k).1 = t := by simp [remove, hc]
    rw [hstay]
    exact ⟨rs, h⟩
  | cons cur next =>
    simp only [AtFirst, hc, List.tail_cons] at hfirst
    by_cases hk : k = cur.key
    · subst hk
      have hgone : (t.remove hash cur.key).1 =
          t.unlink (hash cur.key % t.size) next cur.key cur.positions := by
        simp [remove, hc]
      rw [hgone] at hrw' ⊢
      have hcur : cur.Recorded rs := h.nodes cur (by
        rw [Node, hc]
        exact List.mem_cons_self)
      have hnowrite : ¬(t.nRem + 1 = t.magicNumber) := by
        intro he
        simp [unlink, writeFile, he, hrw] at hrw'
      have hunlink : t.unlink (hash cur.key % t.size) next cur.key cur.positions =
          { t with
            kvpairs := Function.update t.kvpairs (hash cur.key % t.size) next
            numEl := t.numEl - 1
            nRem := t.nRem + 1
            dbfile := mark t.dbfile cur.positions } := by
        simp [unlink, hnowrite, hrw]
      rw [hunlink]
      refine ⟨_, h.drop hl ?_ (mark_content h.content h.fields hcur.positions)⟩
      intro p
      have hnode := @node_update hash t { t with
            kvpairs := Function.update t.kvpairs (hash cur.key % t.size) next
            numEl := t.numEl - 1
            nRem := t.nRem + 1
            dbfile := mark t.dbfile cur.positions } next cur.key p False rfl rfl False.elim (by
        rw [hc, List.mem_cons, false_or]
        have hnd := nodup_keys ht (hash cur.key % t.size)
        rw [hc] at hnd
        have hne := (nodup_keys_cons.1 hnd).1
        grind)
      rwa [false_or] at hnode
    · have hstay : (t.remove hash k).1 = t := by
        simp [remove, hc, hk, hnext next hfirst]
      rw [hstay]
      exact ⟨rs, h⟩

end Operations

/-- What may be given to `put`, `append` and `remove`. -/
def OpOk : NoVoHT.Op → Prop
  | .put k v => KVPair.Storable ⟨k, v⟩
  | .append k aval => KVPair.Storable ⟨k, aval⟩
  | .remove k => IsFileField k ∧ k.head? ≠ some '~'
  | .get k => k ≠ []

instance : DecidablePred OpOk
  | .put k v => inferInstanceAs (Decidable (KVPair.Storable ⟨k, v⟩))
  | .append k aval => inferInstanceAs (Decidable (KVPair.Storable ⟨k, aval⟩))
  | .remove k => inferInstanceAs (Decidable (IsFileField k ∧ k.head? ≠ some '~'))
  | .get k => inferInstanceAs (Decidable (k ≠ []))

/-- The values of the live records of a key, in file order. -/
def liveValues (content : Str) (k : Str) : List Str :=
  ((liveRecords content).filter fun r => r.key = k).map KVPair.val

/-- The live records of a key present join to its value, and a key that is absent has none. -/
def Mirrors (hash : Str → Nat) (t : DbTable) : Prop :=
  ∀ k, match t.get hash k with
    | some v => [':'].intercalate (liveValues t.dbfile.content k) = v
    | none => liveValues t.dbfile.content k = []

/-- Every operation of the sequence is applied while no rewrite is in progress, and none removes a
key from behind the first node of a bucket. -/
def StepsAtFirst (hash : Str → Nat) (resizeDue : Int → Nat → Bool) :
    DbTable → List (NoVoHT.Op × Bool) → Prop
  | _, [] => True
  | t, op :: ops =>
    t.rewriting = false ∧ t.AtFirst hash op.1 ∧
      StepsAtFirst hash resizeDue (t.step hash resizeDue op).1 ops

instance instDecidableStepsAtFirst (hash : Str → Nat) (resizeDue : Int → Nat → Bool) :
    (t : DbTable) → (ops : List (NoVoHT.Op × Bool)) → Decidable (t.StepsAtFirst hash resizeDue ops)
  | _, [] => .isTrue trivial
  | t, op :: ops =>
    have := instDecidableStepsAtFirst hash resizeDue (t.step hash resizeDue op).1 ops
    inferInstanceAs (Decidable (_ ∧ _ ∧ _))

section Mirror

variable {hash : Str → Nat} {resizeDue : Int → Nat → Bool} {t : DbTable} {rs : List KVPair}
  {m : Store}

theorem OpOk.key_ne {op : NoVoHT.Op} (h : OpOk op) : op.key ≠ [] := by
  cases op with
  | put k v => exact h.key.ne_nil
  | append k aval => exact h.key.ne_nil
  | remove k => exact h.1.ne_nil
  | get k => exact h

/-- What holds of the table in memory after an operation. -/
theorem step_refines (ht : t.toNoVoHT.WF hash) (hm : t.toNoVoHT.Holds hash m)
    {op : NoVoHT.Op × Bool} (hk : op.1.key ≠ []) :
    (t.step hash resizeDue op).1.toNoVoHT.WF hash ∧
      (t.step hash resizeDue op).1.toNoVoHT.Holds hash (NoVoHT.mapStep m op.1).1 := by
  rw [(step_toNoVoHT t op).1]
  exact (NoVoHT.step_refines ht hm hk).2

theorem logged_step (h : t.Logged hash rs) (ht : t.toNoVoHT.WF hash) {op : NoVoHT.Op × Bool}
    (hop : OpOk op.1) (hrw : t.rewriting = false) (hfirst : t.AtFirst hash op.1)
    (hrw' : (t.step hash resizeDue op).1.rewriting = false) :
    ∃ rs', (t.step hash resizeDue op).1.Logged hash rs' := by
  obtain ⟨op, diff⟩ := op
  cases op with
  | put k v => exact logged_put h ht hop diff
  | append k aval => exact logged_append h ht hop diff
  | remove k => exact logged_remove h ht hop.2 hrw hfirst hrw'
  | get k => exact ⟨rs, h⟩

/-- A log kept in this way mirrors the table. -/
theorem Logged.mirrors (h : t.Logged hash rs) : t.Mirrors hash := by
  intro k
  have hlive : liveRecords t.dbfile.content = rs.filter fun r => r.Live := by
    rw [liveRecords, h.content, records_fileText h.fields]
  have hnone : (∀ r ∈ rs, r.Live → r.key ≠ k) → liveValues t.dbfile.content k = [] := by
    intro hne
    rw [liveValues, hlive, List.map_eq_nil_iff, List.filter_eq_nil_iff]
    intro r hr
    obtain ⟨hr, hl⟩ := List.mem_filter.1 hr
    simpa using hne r hr (of_decide_eq_true hl)
  rw [get]
  by_cases hk : k.isEmpty = true
  · rw [if_pos hk]
    apply hnone
    intro r hr _ he
    rw [← he, List.isEmpty_iff] at hk
    exact (h.fields r hr).1.ne_nil hk
  · rw [if_neg hk]
    cases hf : findNode k (t.kvpairs (hash k % t.size)) with
    | none =>
      apply hnone
      intro r hr hl he
      subst he
      exact h.key_absent hl hf r hr rfl
    | some cur =>
      obtain ⟨rfl, hcur⟩ := h.of_findNode hf
      have hfilter : ((rs.filter fun r => r.Live).filter fun r => r.key = cur.key) =
          rs.filter fun r => r.key = cur.key := by
        rw [List.filter_filter]
        apply List.filter_congr
        intro r _
        by_cases he : r.key = cur.key
        · have hl : r.Live := by
            rw [KVPair.Live, he]
            exact hcur.storable.live
          simp [he, hl]
        · simp [he]
      rw [Option.map_some, liveValues, hlive, hfilter]
      exact hcur.value

theorem StepsAtFirst.take {ops : List (NoVoHT.Op × Bool)} (h : t.StepsAtFirst hash resizeDue ops)
    (n : Nat) : t.StepsAtFirst hash resizeDue (ops.take n) := by
  induction ops generalizing t n with
  | nil => simpa using h
  | cons op ops ih =>
    cases n with
    | zero => trivial
    | succ n => exact ⟨h.1, h.2.1, ih h.2.2 n⟩

theorem logged_run {ops : List (NoVoHT.Op × Bool)} (hops : ∀ op ∈ ops, OpOk op.1)
    (hsteps : t.StepsAtFirst hash resizeDue ops) (ht : t.toNoVoHT.WF hash)
    (hm : t.toNoVoHT.Holds hash m) (h : t.rewriting = false → ∃ rs, t.Logged hash rs)
    (hrw : (t.run hash resizeDue ops).rewriting = false) :
    ∃ rs, (t.run hash resizeDue ops).Logged hash rs := by
  induction ops generalizing t m with
  | nil => exact h hrw
  | cons op ops ih =>
    obtain ⟨hidle, hfirst, hrest⟩ := hsteps
    have hop := hops op List.mem_cons_self
    obtain ⟨rs, hlog⟩ := h hidle
    obtain ⟨ht', hm'⟩ := @step_refines hash resizeDue t m ht hm op hop.key_ne
    exact ih (fun op hop => hops op (List.mem_cons_of_mem _ hop)) hrest ht' hm'
      (logged_step hlog ht hop hidle hfirst) hrw

theorem logged_empty (hash : Str → Nat) (initSize : Nat) (gcnum : Int) :
    ({ size := initSize, magicNumber := gcnum } : DbTable).Logged hash [] where
  content := rfl
  fields := fun _ hr => absurd hr List.not_mem_nil
  nodes := fun _ hp => absurd hp List.not_mem_nil
  present := fun _ hr => absurd hr List.not_mem_nil

end Mirror

/-- As long as keys are removed only from the heads of their chains, the file mirrors the table
after every operation. -/
theorem run_mirrors (hash : Str → Nat) (resizeDue : Int → Nat → Bool) (initSize : Nat)
    (gcnum : Int) (hsize : 1 ≤ initSize) (ops : List (NoVoHT.Op × Bool))
    (hops : ∀ op ∈ ops, OpOk op.1)
    (hsteps : StepsAtFirst hash resizeDue { size := initSize, magicNumber := gcnum } ops)
    (n : Nat) :
    let t := run hash resizeDue { size := initSize, magicNumber := gcnum } (ops.take n)
    t.rewriting = false → t.Mirrors hash := by
  intro t hrw
  have hwf := NoVoHT.wf_empty hash hsize
  have hholds := NoVoHT.holds_empty hash initSize
  obtain ⟨rs, hlog⟩ := @logged_run hash resizeDue { size := initSize, magicNumber := gcnum } _
    (ops.take n) (fun op hop => hops op (List.mem_of_mem_take hop)) (hsteps.take n) hwf hholds
    (fun _ => ⟨[], logged_empty hash initSize gcnum⟩) hrw
  exact hlog.mirrors

theorem run_mirrors_overwrite :
    let ops : List (NoVoHT.Op × Bool) := [(.put "a".toList "1".toList, false),
      (.append "a".toList "2".toList, false), (.put "b".toList "3".toList, false),
      (.put "a".toList "4".toList, false), (.remove "a".toList, false)]
    (run (fun _ => 0) (fun _ _ => false) { size := 1, magicNumber := -1 } ops).Mirrors
      fun _ => 0 := by
  intro ops
  apply run_mirrors (fun _ => 0) (fun _ _ => false) 1 (-1) (by decide) ops _ _ 5
  · decide
  · decide
  · decide

/-- Removing the second node of a chain marks the records of the first. -/
theorem not_run_mirrors_second :
    let ops : List (NoVoHT.Op × Bool) := [(.put "a".toList "1".toList, false),
      (.put "b".toList "2".toList, false), (.remove "b".toList, false)]
    let t := run (fun _ => 0) (fun _ _ => false) { size := 1, magicNumber := -1 } ops
    (∀ op ∈ ops, OpOk op.1) ∧ t.rewriting = false ∧ ¬t.Mirrors fun _ => 0 := by
  intro ops t
  refine ⟨by decide, by decide, ?_⟩
  intro h
  have hget : t.get (fun _ => 0) "a".toList = some "1".toList := by decide
  have hlive : liveValues t.dbfile.content "a".toList = [] := by decide
  have ha := h "a".toList
  simp only [hget, hlive] at ha
  revert ha
  decide

end DbTable

end MatrixZht
