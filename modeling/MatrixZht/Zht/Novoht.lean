import Mathlib.Data.List.Nodup
import MatrixZht.Store

namespace MatrixZht

structure KVPair where
  key : Str
  val : Str
deriving DecidableEq

theorem KVPair.eq_mk_iff {p : KVPair} {k v : Str} : p = ⟨k, v⟩ ↔ v = p.val ∧ p.key = k := by
  cases p
  simp [eq_comm, and_comm]

/-- The hash table without a backing file: writing, marking and rewriting the file then do nothing
and return `0`. The chain in each bucket is listed from its head. -/
structure NoVoHT where
  size : Nat
  numEl : Int := 0
  kvpairs : Nat → List KVPair := fun _ => []

namespace NoVoHT

/-- The walk of `put` along a chain, with `true` when a node was added at its end. The last node is
compared after the loop. -/
def putChain (k v : Str) : List KVPair → List KVPair × Bool
  | [] => ([⟨k, v⟩], true)
  | [cur] => if k = cur.key then ([⟨cur.key, v⟩], false) else ([cur, ⟨k, v⟩], true)
  | cur :: next :: rest =>
    if k = cur.key then (⟨cur.key, v⟩ :: next :: rest, false)
    else
      let r := putChain k v (next :: rest)
      (cur :: r.1, r.2)

def getChain (k : Str) : List KVPair → Option Str
  | [] => none
  | cur :: next =>
    if k.isEmpty then none else if k = cur.key then some cur.val else getChain k next

/-- The nodes behind the current one, with the first of key `k` unlinked. -/
def removeNext (k : Str) : List KVPair → Option (List KVPair)
  | [] => none
  | r :: rest => if k = r.key then some rest else (removeNext k rest).map (r :: ·)

def removeChain (k : Str) : List KVPair → Option (List KVPair)
  | [] => none
  | cur :: next => if k = cur.key then some next else (removeNext k next).map (cur :: ·)

/-- The walk of `append`; `none` when no node has the key. -/
def appendChain (k aval : Str) : List KVPair → Option (List KVPair)
  | [] => none
  | cur :: next =>
    if k = cur.key then some (⟨cur.key, cur.val ++ ':' :: aval⟩ :: next)
    else (appendChain k aval next).map (cur :: ·)

section Ops

variable (hash : Str → Nat) (resizeDue : Int → Nat → Bool)

/-- Links a node at the head of its bucket in a table of `ns` buckets. -/
def relink (ns : Nat) (kvpairs : Nat → List KVPair) (cur : KVPair) : Nat → List KVPair :=
  let pos := hash cur.key % ns
  Function.update kvpairs pos (cur :: kvpairs pos)

def resize (t : NoVoHT) (ns : Nat) : NoVoHT where
  size := ns
  numEl := 0
  kvpairs := (List.range t.size).foldl
    (fun kvpairs i => (t.kvpairs i).foldl (relink hash ns) kvpairs) fun _ => []

def setBucket (t : NoVoHT) (slot : Nat) (chain : List KVPair) (numEl : Int) : NoVoHT :=
  { t with kvpairs := Function.update t.kvpairs slot chain, numEl }

def put (t : NoVoHT) (k v : Str) : NoVoHT × Int :=
  let t := if resizeDue t.numEl t.size then t.resize hash (t.size * 2) else t
  let slot := hash k % t.size
  let (chain, added) := putChain k v (t.kvpairs slot)
  (t.setBucket slot chain (if added then t.numEl + 1 else t.numEl), 0)

def get (t : NoVoHT) (k : Str) : Option Str := getChain k (t.kvpairs (hash k % t.size))

def remove (t : NoVoHT) (k : Str) : NoVoHT × Int :=
  let loc := hash k % t.size
  match removeChain k (t.kvpairs loc) with
  | none => (t, -1)
  | some chain => (t.setBucket loc chain (t.numEl - 1), 0)

def append (t : NoVoHT) (k aval : Str) : NoVoHT × Int :=
  let loc := hash k % t.size
  match appendChain k aval (t.kvpairs loc) with
  | some chain => (t.setBucket loc chain t.numEl, 0)
  | none => (t.setBucket loc (⟨k, aval⟩ :: t.kvpairs loc) (t.numEl + 1), 0)

end Ops

/-- No two nodes of a chain have the same key. -/
def KeysNodup (c : List KVPair) : Prop := (c.map KVPair.key).Nodup

section Chain

variable {k v : Str} {c c' : List KVPair} {p : KVPair}

theorem keysNodup_cons {cur : KVPair} :
    KeysNodup (cur :: c) ↔ (∀ p ∈ c, p.key ≠ cur.key) ∧ KeysNodup c := by
  simp [KeysNodup, List.nodup_cons, eq_comm]

theorem putChain_keys (k v : Str) (c : List KVPair) :
    (putChain k v c).1.map KVPair.key =
      if k ∈ c.map KVPair.key then c.map KVPair.key else c.map KVPair.key ++ [k] := by
  fun_induction putChain k v c with
  | case1 => simp
  | case2 cur h => simp [h]
  | case3 cur h => simp [h]
  | case4 cur next rest h => simp [h]
  | case5 cur next rest h r ih =>
    simp only [List.map_cons, r, ih, List.mem_cons, h, false_or]
    split <;> simp

theorem KeysNodup.putChain (hc : KeysNodup c) (k v : Str) : KeysNodup (putChain k v c).1 := by
  rw [KeysNodup, putChain_keys]
  split
  · exact hc
  · next hk => exact List.nodup_append.2 ⟨hc, List.nodup_singleton k, by grind⟩

theorem mem_putChain (hc : KeysNodup c) :
    p ∈ (putChain k v c).1 ↔ p = ⟨k, v⟩ ∨ (p ∈ c ∧ p.key ≠ k) := by
  fun_induction putChain k v c with
  | case1 => simp
  | case2 cur h =>
    simp only [List.mem_singleton, h]
    grind
  | case3 cur h =>
    simp only [List.mem_cons, List.not_mem_nil, or_false]
    grind
  | case4 cur next rest h =>
    have hne := (keysNodup_cons.1 hc).1
    simp only [List.mem_cons] at hne ⊢
    grind
  | case5 cur next rest h r ih =>
    have ih := ih (keysNodup_cons.1 hc).2
    simp only [r, List.mem_cons (a := p) (b := cur), ih]
    grind

theorem getChain_eq_some (hk : k ≠ []) (hc : KeysNodup c) :
    getChain k c = some v ↔ ⟨k, v⟩ ∈ c := by
  induction c with
  | nil => simp [getChain]
  | cons cur next ih =>
    obtain ⟨hne, hnext⟩ := keysNodup_cons.1 hc
    have hke : k.isEmpty = false := by simpa using hk
    rw [getChain, hke]
    simp only [Bool.false_eq_true, if_false, List.mem_cons]
    by_cases h : k = cur.key
    · rw [if_pos h]
      constructor
      · intro hv
        refine .inl ?_
        rw [h, ← Option.some.inj hv]
      · rintro (hv | hv)
        · rw [← hv]
        · exact absurd h (hne _ hv)
    · rw [if_neg h, ih hnext]
      have hcur : (⟨k, v⟩ : KVPair) ≠ cur := fun he => h (he ▸ rfl)
      simp [hcur]

theorem removeChain_eq_removeNext (k : Str) (c : List KVPair) :
    removeChain k c = removeNext k c := by
  cases c <;> rfl

theorem removeNext_eq_none : removeNext k c = none ↔ ∀ p ∈ c, p.key ≠ k := by
  induction c with
  | nil => simp [removeNext]
  | cons r rest ih =>
    rw [removeNext, List.forall_mem_cons]
    by_cases h : k = r.key
    · simp [h]
    · rw [if_neg h, Option.map_eq_none_iff, ih]
      exact ⟨fun hr => ⟨Ne.symm h, hr⟩, fun hr => hr.2⟩

theorem removeNext_sublist (h : removeNext k c = some c') : c'.Sublist c := by
  induction c generalizing c' with
  | nil => cases h
  | cons r rest ih =>
    rw [removeNext] at h
    split at h
    · rw [← Option.some.inj h]
      exact List.sublist_cons_self r rest
    · obtain ⟨c'', h', rfl⟩ := Option.map_eq_some_iff.1 h
      exact (ih h').cons_cons r

theorem mem_removeNext (hc : KeysNodup c) (h : removeNext k c = some c') :
    p ∈ c' ↔ p ∈ c ∧ p.key ≠ k := by
  induction c generalizing c' with
  | nil => cases h
  | cons r rest ih =>
    obtain ⟨hne, hrest⟩ := keysNodup_cons.1 hc
    rw [removeNext] at h
    split at h
    · next hk =>
      rw [← Option.some.inj h]
      grind
    · obtain ⟨c'', h', rfl⟩ := Option.map_eq_some_iff.1 h
      have ih := ih hrest h'
      grind

theorem appendChain_eq_none : appendChain k v c = none ↔ ∀ p ∈ c, p.key ≠ k := by
  induction c with
  | nil => simp [appendChain]
  | cons r rest ih =>
    rw [appendChain, List.forall_mem_cons]
    by_cases h : k = r.key
    · simp [h]
    · rw [if_neg h, Option.map_eq_none_iff, ih]
      exact ⟨fun hr => ⟨Ne.symm h, hr⟩, fun hr => hr.2⟩

theorem appendChain_keys (h : appendChain k v c = some c') :
    c'.map KVPair.key = c.map KVPair.key := by
  induction c generalizing c' with
  | nil => cases h
  | cons r rest ih =>
    rw [appendChain] at h
    split at h
    · rw [← Option.some.inj h]
      rfl
    · obtain ⟨c'', h', rfl⟩ := Option.map_eq_some_iff.1 h
      rw [List.map_cons, List.map_cons, ih h']

theorem mem_appendChain (hc : KeysNodup c) (h : appendChain k v c = some c') :
    p ∈ c' ↔ (∃ old, ⟨k, old⟩ ∈ c ∧ p = ⟨k, old ++ ':' :: v⟩) ∨ (p ∈ c ∧ p.key ≠ k) := by
  induction c generalizing c' with
  | nil => cases h
  | cons r rest ih =>
    obtain ⟨hne, hrest⟩ := keysNodup_cons.1 hc
    rw [appendChain] at h
    split at h
    · next hk =>
      subst hk
      rw [← Option.some.inj h, List.mem_cons]
      constructor
      · rintro (rfl | hp)
        · exact .inl ⟨r.val, List.mem_cons_self, rfl⟩
        · exact .inr ⟨List.mem_cons_of_mem _ hp, hne p hp⟩
      · rintro (⟨old, hold, rfl⟩ | ⟨hp, hkey⟩)
        · rcases List.mem_cons.1 hold with he | hold
          · rw [← he]
            exact .inl rfl
          · exact (hne ⟨r.key, old⟩ hold rfl).elim
        · rcases List.mem_cons.1 hp with rfl | hp
          · exact absurd rfl hkey
          · exact .inr hp
    · next hk =>
      obtain ⟨c'', h', rfl⟩ := Option.map_eq_some_iff.1 h
      have hr (old : Str) : (⟨k, old⟩ : KVPair) ≠ r := fun he => hk (he ▸ rfl)
      have hrk : p = r → p.key ≠ k := fun he => he ▸ Ne.symm hk
      simp only [List.mem_cons, ih hrest h', hr, false_or]
      grind

end Chain

section Table

variable {hash : Str → Nat} {t : NoVoHT} {m : Store} {k v : Str}

/-- Every node is in the bucket of its key, and no bucket has two nodes of one key. -/
structure WF (hash : Str → Nat) (t : NoVoHT) : Prop where
  size_pos : 0 < t.size
  home : ∀ i, ∀ p ∈ t.kvpairs i, hash p.key % t.size = i
  nodup : ∀ i, KeysNodup (t.kvpairs i)

/-- The bindings of a map are the nodes of the table. -/
def Holds (hash : Str → Nat) (t : NoVoHT) (m : Store) : Prop :=
  ∀ k v, m k = some v ↔ ⟨k, v⟩ ∈ t.kvpairs (hash k % t.size)

theorem wf_setBucket (ht : t.WF hash) {slot : Nat} {chain : List KVPair} (hn : KeysNodup chain)
    (hh : ∀ p ∈ chain, hash p.key % t.size = slot) (numEl : Int) :
    (t.setBucket slot chain numEl).WF hash where
  size_pos := ht.size_pos
  home := by
    intro i p hp
    by_cases hi : i = slot
    · subst hi
      simp only [setBucket, Function.update_self] at hp
      exact hh p hp
    · simp only [setBucket, Function.update_of_ne hi] at hp
      exact ht.home i p hp
  nodup := by
    intro i
    by_cases hi : i = slot
    · subst hi
      simpa only [setBucket, Function.update_self] using hn
    · simpa only [setBucket, Function.update_of_ne hi] using ht.nodup i

theorem holds_setBucket {m' : Store} {chain : List KVPair}
    (hm : t.Holds hash m) (hother : ∀ k', k' ≠ k → m' k' = m k')
    (hmem : ∀ p, p ∈ chain ↔
      m' k = some p.val ∧ p.key = k ∨ p ∈ t.kvpairs (hash k % t.size) ∧ p.key ≠ k)
    (numEl : Int) : (t.setBucket (hash k % t.size) chain numEl).Holds hash m' := by
  intro k' v'
  by_cases hk : k' = k
  · subst hk
    simp only [setBucket, Function.update_self, hmem]
    simp
  · rw [hother k' hk, hm k' v']
    by_cases hi : hash k' % t.size = hash k % t.size
    · simp only [setBucket, hi, Function.update_self, hmem]
      simp [hk]
    · simp only [setBucket, Function.update_of_ne hi]

theorem foldl_link {α : Type} (slot : α → Nat) (nodes : List α) (kvpairs : Nat → List α)
    (pos : Nat) :
    nodes.foldl (fun kvpairs cur => Function.update kvpairs (slot cur) (cur :: kvpairs (slot cur)))
        kvpairs pos =
      (nodes.filter fun p => slot p = pos).reverse ++ kvpairs pos := by
  induction nodes generalizing kvpairs with
  | nil => rfl
  | cons cur nodes ih =>
    rw [List.foldl_cons, ih]
    by_cases hp : slot cur = pos
    · simp [hp]
    · simp [hp, Function.update_of_ne (Ne.symm hp)]

theorem foldl_relink (ns : Nat) (nodes : List KVPair) (kvpairs : Nat → List KVPair) (pos : Nat) :
    nodes.foldl (relink hash ns) kvpairs pos =
      (nodes.filter fun p => hash p.key % ns = pos).reverse ++ kvpairs pos :=
  foldl_link (fun cur : KVPair => hash cur.key % ns) nodes kvpairs pos

/-- All nodes of the table, bucket by bucket. -/
def nodes (t : NoVoHT) : List KVPair := (List.range t.size).flatMap t.kvpairs

theorem resize_kvpairs (t : NoVoHT) (ns pos : Nat) :
    (t.resize hash ns).kvpairs pos =
      (t.nodes.filter fun p => hash p.key % ns = pos).reverse := by
  have h := @foldl_relink hash ns t.nodes (fun _ => []) pos
  rw [List.append_nil, nodes, List.foldl_flatMap] at h
  exact h

theorem mem_nodes (ht : t.WF hash) {p : KVPair} :
    p ∈ t.nodes ↔ p ∈ t.kvpairs (hash p.key % t.size) := by
  rw [nodes, List.mem_flatMap]
  constructor
  · rintro ⟨i, _, hp⟩
    rwa [ht.home i p hp]
  · intro hp
    exact ⟨_, List.mem_range.2 (Nat.mod_lt _ ht.size_pos), hp⟩

theorem nodes_nodup (ht : t.WF hash) : KeysNodup t.nodes := by
  rw [KeysNodup, nodes, List.map_flatMap, List.nodup_flatMap]
  refine ⟨fun i _ => ht.nodup i, List.nodup_range.imp_of_mem ?_⟩
  intro i j _ _ hij k hi hj
  obtain ⟨p, hp, rfl⟩ := List.mem_map.1 hi
  obtain ⟨q, hq, hk⟩ := List.mem_map.1 hj
  apply hij
  rw [← ht.home i p hp, ← ht.home j q hq, hk]

/-- Relinking all nodes into a larger table loses and duplicates none. -/
theorem resize_wf (ht : t.WF hash) {ns : Nat} (hns : 0 < ns) : (t.resize hash ns).WF hash where
  size_pos := hns
  home := by
    intro i p hp
    rw [resize_kvpairs, List.mem_reverse, List.mem_filter] at hp
    exact of_decide_eq_true hp.2
  nodup := by
    intro i
    rw [KeysNodup, resize_kvpairs, List.map_reverse, List.nodup_reverse]
    exact (nodes_nodup ht).sublist ((List.filter_sublist).map _)

theorem resize_holds (ht : t.WF hash) (hm : t.Holds hash m) (ns : Nat) :
    (t.resize hash ns).Holds hash m := by
  intro k v
  rw [resize_kvpairs, List.mem_reverse, List.mem_filter, mem_nodes ht, hm k v]
  simp [resize]

theorem get_eq (ht : t.WF hash) (hm : t.Holds hash m) (hk : k ≠ []) : t.get hash k = m k := by
  refine Option.ext fun v => ?_
  rw [get, getChain_eq_some hk (ht.nodup _), hm k v]

theorem put_spec (resizeDue : Int → Nat → Bool) (ht : t.WF hash) (hm : t.Holds hash m)
    (k v : Str) :
    (t.put hash resizeDue k v).2 = 0 ∧ (t.put hash resizeDue k v).1.WF hash ∧
      (t.put hash resizeDue k v).1.Holds hash (m.insert k v) := by
  obtain ⟨t', hput, ht', hm'⟩ : ∃ t' : NoVoHT,
      (if resizeDue t.numEl t.size then t.resize hash (t.size * 2) else t) = t' ∧
        t'.WF hash ∧ t'.Holds hash m := by
    refine ⟨_, rfl, ?_⟩
    split
    · exact ⟨resize_wf ht (by have := ht.size_pos; omega), resize_holds ht hm _⟩
    · exact ⟨ht, hm⟩
  have hc := ht'.nodup (hash k % t'.size)
  simp only [put, hput]
  refine ⟨trivial, wf_setBucket ht' (hc.putChain k v) ?_ _, holds_setBucket hm' ?_ ?_ _⟩
  · intro p hp
    rcases (mem_putChain hc).1 hp with rfl | ⟨hp, _⟩
    · rfl
    · exact ht'.home _ p hp
  · exact fun k' hk => Store.insert_of_ne hk
  · intro p
    rw [mem_putChain hc, Store.insert_self, Option.some.injEq, KVPair.eq_mk_iff]

theorem remove_spec_of_none (hm : t.Holds hash m) (hk : m k = none) :
    t.remove hash k = (t, -1) := by
  have hnone : removeChain k (t.kvpairs (hash k % t.size)) = none := by
    rw [removeChain_eq_removeNext, removeNext_eq_none]
    rintro ⟨k', v⟩ hp rfl
    rw [(hm k' v).2 hp] at hk
    cases hk
  simp only [remove, hnone]

theorem remove_spec (ht : t.WF hash) (hm : t.Holds hash m) (hk : m k = some v) :
    (t.remove hash k).2 = 0 ∧ (t.remove hash k).1.WF hash ∧
      (t.remove hash k).1.Holds hash (m.remove k) := by
  have hc := ht.nodup (hash k % t.size)
  cases hr : removeChain k (t.kvpairs (hash k % t.size)) with
  | none =>
    rw [removeChain_eq_removeNext, removeNext_eq_none] at hr
    exact (hr ⟨k, v⟩ ((hm k v).1 hk) rfl).elim
  | some chain =>
    rw [removeChain_eq_removeNext] at hr
    simp only [remove, removeChain_eq_removeNext, hr]
    refine ⟨trivial, wf_setBucket ht ?_ ?_ _, holds_setBucket hm ?_ ?_ _⟩
    · exact hc.sublist ((removeNext_sublist hr).map _)
    · exact fun p hp => ht.home _ p ((mem_removeNext hc hr).1 hp).1
    · exact fun k' hk' => Function.update_of_ne hk' ..
    · intro p
      rw [mem_removeNext hc hr, Store.remove, Function.update_self]
      simp

/-- The value `append` leaves at a key. -/
def joined (old : Option Str) (aval : Str) : Str :=
  match old with
  | none => aval
  | some old => old ++ ':' :: aval

theorem append_spec (ht : t.WF hash) (hm : t.Holds hash m) (k aval : Str) :
    (t.append hash k aval).2 = 0 ∧ (t.append hash k aval).1.WF hash ∧
      (t.append hash k aval).1.Holds hash (m.insert k (joined (m k) aval)) := by
  have hc := ht.nodup (hash k % t.size)
  cases hr : appendChain k aval (t.kvpairs (hash k % t.size)) with
  | none =>
    have hne := appendChain_eq_none.1 hr
    have hk : m k = none := Option.eq_none_iff_forall_ne_some.2 fun v hv =>
      hne ⟨k, v⟩ ((hm k v).1 hv) rfl
    simp only [append, hr, hk, joined]
    refine ⟨trivial, wf_setBucket ht (keysNodup_cons.2 ⟨hne, hc⟩) ?_ _, holds_setBucket hm ?_ ?_ _⟩
    · intro p hp
      rcases List.mem_cons.1 hp with rfl | hp
      · rfl
      · exact ht.home _ p hp
    · exact fun k' hk' => Store.insert_of_ne hk'
    · intro p
      rw [List.mem_cons, Store.insert_self, Option.some.injEq, KVPair.eq_mk_iff]
      exact or_congr_right ⟨fun h => ⟨h, hne p h⟩, fun h => h.1⟩
  | some chain =>
    simp only [append, hr]
    refine ⟨trivial, wf_setBucket ht ?_ ?_ _, holds_setBucket hm ?_ ?_ _⟩
    · rw [KeysNodup, appendChain_keys hr]
      exact hc
    · intro p hp
      rcases (mem_appendChain hc hr).1 hp with ⟨old, hold, rfl⟩ | ⟨hp, _⟩
      · exact ht.home _ ⟨k, old⟩ hold
      · exact ht.home _ p hp
    · exact fun k' hk' => Store.insert_of_ne hk'
    · intro p
      rw [mem_appendChain hc hr, Store.insert_self, Option.some.injEq]
      refine or_congr_left ⟨?_, ?_⟩
      · rintro ⟨old, hold, rfl⟩
        rw [(hm k old).2 hold]
        exact ⟨rfl, rfl⟩
      · rintro ⟨hv, hk⟩
        have hsome : appendChain k aval (t.kvpairs (hash k % t.size)) ≠ none := by simp [hr]
        rw [ne_eq, appendChain_eq_none] at hsome
        push Not at hsome
        obtain ⟨⟨k', old⟩, hold, rfl⟩ := hsome
        rw [(hm _ old).2 hold] at hv
        exact ⟨old, hold, KVPair.eq_mk_iff.2 ⟨hv, hk⟩⟩

end Table

inductive Op where
  | put (k v : Str)
  | append (k aval : Str)
  | remove (k : Str)
  | get (k : Str)
deriving DecidableEq

inductive Answer where
  | status (ret : Int)
  | value (val : Option Str)
deriving DecidableEq

def Op.key : Op → Str
  | put k _ => k
  | append k _ => k
  | remove k => k
  | get k => k

section Run

variable (hash : Str → Nat) (resizeDue : Int → Nat → Bool)

def step (t : NoVoHT) : Op → NoVoHT × Answer
  | .put k v => ((t.put hash resizeDue k v).1, .status (t.put hash resizeDue k v).2)
  | .append k aval => ((t.append hash k aval).1, .status (t.append hash k aval).2)
  | .remove k => ((t.remove hash k).1, .status (t.remove hash k).2)
  | .get k => (t, .value (t.get hash k))

/-- The table and the answers after a sequence of operations. -/
def run (t : NoVoHT) : List Op → NoVoHT × List Answer
  | [] => (t, [])
  | op :: ops =>
    let (t, answer) := t.step hash resizeDue op
    let (t, answers) := run t ops
    (t, answer :: answers)

end Run

/-- What the operations do to a map. -/
def mapStep (m : Store) : Op → Store × Answer
  | .put k v => (m.insert k v, .status 0)
  | .append k aval => (m.insert k (joined (m k) aval), .status 0)
  | .remove k => if (m k).isSome then (m.remove k, .status 0) else (m, .status (-1))
  | .get k => (m, .value (m k))

def mapRun (m : Store) : List Op → Store × List Answer
  | [] => (m, [])
  | op :: ops =>
    let (m, answer) := mapStep m op
    let (m, answers) := mapRun m ops
    (m, answer :: answers)

section Refinement

variable {hash : Str → Nat} {resizeDue : Int → Nat → Bool} {t : NoVoHT} {m : Store}

theorem step_holds (ht : t.WF hash) (hm : t.Holds hash m) (op : Op) :
    (t.step hash resizeDue op).1.WF hash ∧
      (t.step hash resizeDue op).1.Holds hash (mapStep m op).1 := by
  cases op with
  | put k v => exact (put_spec resizeDue ht hm k v).2
  | append k aval => exact (append_spec ht hm k aval).2
  | remove k =>
    cases hv : m k with
    | none =>
      simp only [step, mapStep, hv, remove_spec_of_none hm hv]
      exact ⟨ht, hm⟩
    | some v =>
      simp only [step, mapStep, hv, Option.isSome_some, if_true]
      exact (remove_spec ht hm hv).2
  | get k => exact ⟨ht, hm⟩

/-- One operation answers as the map does and keeps the table a well formed image of it. -/
theorem step_refines (ht : t.WF hash) (hm : t.Holds hash m) {op : Op} (hk : op.key ≠ []) :
    (t.step hash resizeDue op).2 = (mapStep m op).2 ∧ (t.step hash resizeDue op).1.WF hash ∧
      (t.step hash resizeDue op).1.Holds hash (mapStep m op).1 := by
  refine ⟨?_, step_holds ht hm op⟩
  cases op with
  | put k v => exact congrArg Answer.status (put_spec resizeDue ht hm k v).1
  | append k aval => exact congrArg Answer.status (append_spec ht hm k aval).1
  | remove k =>
    cases hv : m k with
    | none => simp only [step, mapStep, hv, remove_spec_of_none hm hv]; rfl
    | some v => simp only [step, mapStep, hv, (remove_spec ht hm hv).1]; rfl
  | get k => exact congrArg Answer.value (get_eq ht hm hk)

theorem run_refines {ops : List Op} (hk : ∀ op ∈ ops, op.key ≠ []) (ht : t.WF hash)
    (hm : t.Holds hash m) :
    (t.run hash resizeDue ops).2 = (mapRun m ops).2 ∧ (t.run hash resizeDue ops).1.WF hash ∧
      (t.run hash resizeDue ops).1.Holds hash (mapRun m ops).1 := by
  induction ops generalizing t m with
  | nil => exact ⟨rfl, ht, hm⟩
  | cons op ops ih =>
    obtain ⟨hanswer, ht', hm'⟩ :=
      @step_refines hash resizeDue t m ht hm op (hk op List.mem_cons_self)
    obtain ⟨hanswers, hspec⟩ := ih (fun op hop => hk op (List.mem_cons_of_mem _ hop)) ht' hm'
    exact ⟨by simp only [run, mapRun, hanswer, hanswers], hspec⟩

theorem wf_empty (hash : Str → Nat) {initSize : Nat} (h : 1 ≤ initSize) :
    ({ size := initSize } : NoVoHT).WF hash :=
  ⟨h, fun _ _ hp => absurd hp List.not_mem_nil, fun _ => List.nodup_nil⟩

theorem holds_empty (hash : Str → Nat) (initSize : Nat) :
    ({ size := initSize } : NoVoHT).Holds hash fun _ => none := by
  intro k v
  simp

theorem WF.node_unique (ht : t.WF hash) {i j a b : Nat} {p q : KVPair}
    (hp : (t.kvpairs i)[a]? = some p) (hq : (t.kvpairs j)[b]? = some q) (h : p.key = q.key) :
    i = j ∧ a = b := by
  have hij : i = j := by
    rw [← ht.home i p (List.mem_of_getElem? hp), ← ht.home j q (List.mem_of_getElem? hq), h]
  subst hij
  refine ⟨rfl, ?_⟩
  have hab : ((t.kvpairs i).map KVPair.key)[a]? = ((t.kvpairs i).map KVPair.key)[b]? := by
    simp only [List.getElem?_map, hp, hq, Option.map_some, h]
  obtain ⟨ha, _⟩ := List.getElem?_eq_some_iff.1 hp
  exact (List.getElem?_inj (by simpa using ha) (ht.nodup i)).1 hab

end Refinement

/-- Whatever the hash function and the resize rule are, a table is the map its operations
describe. -/
theorem run_spec (hash : Str → Nat) (resizeDue : Int → Nat → Bool) (initSize : Nat)
    (hsize : 1 ≤ initSize) (ops : List Op) (hkeys : ∀ op ∈ ops, op.key ≠ []) :
    let t := (run hash resizeDue { size := initSize } ops).1
    let m := (mapRun (fun _ => none) ops).1
    (run hash resizeDue { size := initSize } ops).2 = (mapRun (fun _ => none) ops).2 ∧
      (∀ k, k ≠ [] → t.get hash k = m k) ∧
      (∀ k, k ≠ [] → ((t.remove hash k).2 = 0 ↔ (m k).isSome) ∧
        (m k = none → t.remove hash k = (t, -1))) ∧
      (∀ i j a b : Nat, ∀ p q, (t.kvpairs i)[a]? = some p → (t.kvpairs j)[b]? = some q →
        p.key = q.key → i = j ∧ a = b) ∧
      ∀ i, ∀ p ∈ t.kvpairs i, i = hash p.key % t.size := by
  obtain ⟨hanswers, ht, hm⟩ := @run_refines hash resizeDue _ _ ops hkeys
    (wf_empty hash hsize) (holds_empty hash initSize)
  refine ⟨hanswers, fun k hk => get_eq ht hm hk, fun k _ => ⟨?_, remove_spec_of_none hm⟩,
    fun i j a b p q => ht.node_unique, fun i p hp => (ht.home i p hp).symm⟩
  cases hk : (mapRun (fun _ => none) ops).1 k with
  | none => simp [remove_spec_of_none hm hk]
  | some v => simp [(remove_spec ht hm hk).1]

theorem run_spec_collisions :
    let ops : List Op := [.put "a".toList "1".toList, .put "b".toList "2".toList,
      .append "a".toList "3".toList, .remove "b".toList, .remove "b".toList]
    let r := run (fun _ => 7) (fun numEl size => decide (numEl ≥ size)) { size := 1 } ops
    r.2 = [.status 0, .status 0, .status 0, .status 0, .status (-1)] ∧
      r.1.get (fun _ => 7) "a".toList = some "1:3".toList := by
  intro ops r
  have h := run_spec (fun _ => 7) (fun numEl size => decide (numEl ≥ size)) 1 (by decide) ops
    (by decide)
  exact ⟨h.1.trans (by decide), (h.2.1 _ (by decide)).trans (by decide)⟩

end NoVoHT

end MatrixZht
