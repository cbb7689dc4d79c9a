import Mathlib.Algebra.Order.BigOperators.Group.List
import Mathlib.Algebra.Order.Group.Nat
import MatrixZht.Transfer
import MatrixZht.Zht.Novoht

namespace MatrixZht

/-- A walk through the bucket array `list`. The current node is given with those behind it in its
chain, and `[]` is `NULL`. -/
structure NovohtIterator where
  list : Nat → List KVPair
  length : Nat
  index : Nat := 0
  current : List KVPair := []

namespace NovohtIterator

/-- The loop of the constructor, with as many turns as `index` is below `length`. -/
def seekFirst : Nat → NovohtIterator → NovohtIterator
  | 0, it => it
  | todo + 1, it =>
    let it := { it with current := it.list it.index }
    if it.current = [] then seekFirst todo { it with index := it.index + 1 } else it

def new (list : Nat → List KVPair) (size : Nat) : NovohtIterator :=
  seekFirst size { list, length := size }

/-- Whether there is a node behind the current one. The search for it in the other buckets is left
out: what it finds is not used. -/
def hasNext (it : NovohtIterator) : Bool :=
  match it.current with
  | _ :: _ :: _ => true
  | _ => decide (it.index + 1 < it.length)

/-- The loop of `nextInternal`, with as many turns as `index + 1` is below `length`. -/
def seekNext : Nat → NovohtIterator → NovohtIterator
  | 0, it => it
  | todo + 1, it =>
    let it := { it with index := it.index + 1, current := it.list (it.index + 1) }
    if it.current = [] then seekNext todo it else it

def nextInternal (it : NovohtIterator) : NovohtIterator :=
  match it.current with
  | _ :: next :: rest => { it with current := next :: rest }
  | _ => seekNext (it.length - 1 - it.index) it

section Next

variable {α : Type}

/-- `next` of an iterator that reads the current node by `read`; `none` when it is `NULL`. -/
def next (read : KVPair → α) (it : NovohtIterator) : Option (α × NovohtIterator) :=
  it.current.head?.map fun current => (read current, it.nextInternal)

/-- The loop `while (it.hasNext()) it.next()`; `none` when a `NULL` is read or the turns run out. -/
def drain (read : KVPair → α) : Nat → NovohtIterator → Option (List α)
  | 0, _ => none
  | turns + 1, it =>
    if it.hasNext then
      (it.next read).bind fun (x, it) => (drain read turns it).map (x :: ·)
    else some []

end Next

/-- What `pair_iterator` makes of a node. -/
def readPair (current : KVPair) : KVPair := ⟨cstr current.key, cstr current.val⟩

/-- The nodes the loop reads when the current one is the first of `c`, from bucket `index`, and
`todo` buckets follow. -/
def reads (list : Nat → List KVPair) : Nat → Nat → List KVPair → List KVPair
  | 0, _, c => c.dropLast
  | todo + 1, index, c => c ++ reads list todo (index + 1) (list (index + 1))

/-- What the loop reads from here on is `ns`, and there is a current node wherever a bucket
follows. -/
structure Pends (it : NovohtIterator) (ns : List KVPair) : Prop where
  ready : it.current = [] → it.length ≤ it.index + 1
  reads_eq : reads it.list (it.length - 1 - it.index) it.index it.current = ns

section Pends

variable {α : Type} {it : NovohtIterator} {p : KVPair} {ns : List KVPair}

theorem pends_seekNext {todo : Nat} (h : it.index + (todo + 2) = it.length) :
    (seekNext (todo + 1) it).Pends
      (reads it.list todo (it.index + 1) (it.list (it.index + 1))) := by
  induction todo generalizing it with
  | zero =>
    by_cases hc : it.list (it.index + 1) = []
    · simp only [seekNext, hc, if_true]
      exact ⟨fun _ => by simp only; omega, by simp [reads, ← h]⟩
    · simp only [seekNext, hc, if_false]
      exact ⟨fun he => absurd he hc, by simp [← h]⟩
  | succ todo ih =>
    rw [seekNext]
    by_cases hc : it.list (it.index + 1) = []
    · rw [if_pos hc, hc, reads, List.nil_append]
      exact @ih { it with index := it.index + 1, current := it.list (it.index + 1) }
        (by simp only; omega)
    · rw [if_neg hc]
      exact ⟨fun he => absurd he hc, by simp only; rw [← h]; congr 1; omega⟩

theorem pends_seekFirst {todo : Nat} (h : it.index + (todo + 1) = it.length) :
    (seekFirst (todo + 1) it).Pends (reads it.list todo it.index (it.list it.index)) := by
  induction todo generalizing it with
  | zero =>
    by_cases hc : it.list it.index = []
    · simp only [seekFirst, hc, if_true]
      exact ⟨fun _ => by simp only; omega, by simp [reads, ← h]⟩
    · simp only [seekFirst, hc, if_false]
      exact ⟨fun he => absurd he hc, by simp [← h]⟩
  | succ todo ih =>
    rw [seekFirst]
    by_cases hc : it.list it.index = []
    · rw [if_pos hc, hc, reads, List.nil_append]
      exact @ih { it with index := it.index + 1, current := it.list it.index }
        (by simp only; omega)
    · rw [if_neg hc]
      exact ⟨fun he => absurd he hc, by simp only; rw [← h]; congr 1; omega⟩

theorem Pends.hasNext_iff (h : it.Pends ns) : it.hasNext = true ↔ ns ≠ [] := by
  obtain ⟨hready, hreads⟩ := h
  subst hreads
  cases htodo : it.length - 1 - it.index with
  | zero =>
    match hc : it.current with
    | [] => simp [hasNext, hc, reads]; omega
    | [p] => simp [hasNext, hc, reads]; omega
    | p :: q :: rest => simp [hasNext, hc, reads]
  | succ todo =>
    match hc : it.current with
    | [] =>
      have := hready hc
      omega
    | [p] => simp [hasNext, hc, reads]; omega
    | p :: q :: rest => simp [hasNext, hc, reads]

theorem Pends.next (h : it.Pends (p :: ns)) (read : KVPair → α) :
    ∃ it', it.next read = some (read p, it') ∧ it'.Pends ns := by
  obtain ⟨hready, hreads⟩ := h
  refine ⟨it.nextInternal, ?_⟩
  cases htodo : it.length - 1 - it.index with
  | zero =>
    match hc : it.current with
    | [] => simp [htodo, hc, reads] at hreads
    | [p'] => simp [htodo, hc, reads] at hreads
    | p' :: q :: rest =>
      rw [htodo, hc, reads, List.dropLast_cons_cons, List.cons.injEq] at hreads
      obtain ⟨rfl, rfl⟩ := hreads
      simp only [NovohtIterator.next, nextInternal, hc]
      exact ⟨rfl, nofun, by simp only [htodo, reads]⟩
  | succ todo =>
    match hc : it.current with
    | [] =>
      have := hready hc
      omega
    | [p'] =>
      rw [htodo, hc, reads, List.singleton_append, List.cons.injEq] at hreads
      obtain ⟨rfl, rfl⟩ := hreads
      simp only [NovohtIterator.next, nextInternal, hc, htodo]
      exact ⟨rfl, pends_seekNext (by omega)⟩
    | p' :: q :: rest =>
      rw [htodo, hc, reads, List.cons_append, List.cons.injEq] at hreads
      obtain ⟨rfl, rfl⟩ := hreads
      simp only [NovohtIterator.next, nextInternal, hc]
      exact ⟨rfl, nofun, by simp only [htodo, reads]⟩

theorem Pends.drain (h : it.Pends ns) (read : KVPair → α) (turns : Nat) :
    it.drain read turns = if ns.length < turns then some (ns.map read) else none := by
  induction turns generalizing it ns with
  | zero => rfl
  | succ turns ih =>
    rw [NovohtIterator.drain]
    cases ns with
    | nil =>
      rw [if_neg (by simp [h.hasNext_iff])]
      rfl
    | cons p ns =>
      obtain ⟨it', hnext, h'⟩ := h.next read
      rw [if_pos (h.hasNext_iff.2 (List.cons_ne_nil p ns)), hnext]
      simp only [Option.bind_some, ih h']
      by_cases hlt : ns.length < turns
      · rw [if_pos hlt, if_pos (by simpa using hlt)]
        rfl
      · rw [if_neg hlt, if_neg (by simpa using hlt)]
        rfl

end Pends

end NovohtIterator

namespace NoVoHT

/-- What the loop reads of a table. -/
def iterated (t : NoVoHT) : List KVPair :=
  NovohtIterator.reads t.kvpairs (t.size - 1) 0 (t.kvpairs 0)

/-- The loop over an iterator that reads a node by `read` ends without reading `NULL`, and returns
what `want` is of each node, once for each. -/
def Complete {α : Type} (t : NoVoHT) (read want : KVPair → α) : Prop :=
  ∃ turns out, (NovohtIterator.new t.kvpairs t.size).drain read turns = some out ∧
    out.Perm (t.nodes.map want)

section Complete

variable {α : Type} {t : NoVoHT} {read want : KVPair → α} {p : KVPair}

theorem pends_new (hsize : 1 ≤ t.size) :
    (NovohtIterator.new t.kvpairs t.size).Pends t.iterated := by
  obtain ⟨todo, htodo⟩ := Nat.exists_eq_add_of_le' hsize
  rw [iterated, NovohtIterator.new, htodo]
  exact NovohtIterator.pends_seekFirst (Nat.zero_add _)

theorem complete_iff (hsize : 1 ≤ t.size) :
    t.Complete read want ↔ (t.iterated.map read).Perm (t.nodes.map want) := by
  constructor
  · rintro ⟨turns, out, hdrain, hperm⟩
    rw [(pends_new hsize).drain, Option.ite_none_right_eq_some] at hdrain
    rwa [Option.some.inj hdrain.2]
  · intro hperm
    refine ⟨t.iterated.length + 1, _, ?_, hperm⟩
    rw [(pends_new hsize).drain, if_pos (Nat.lt_succ_self _)]

theorem reads_append (list : Nat → List KVPair) (todo index : Nat) :
    NovohtIterator.reads list todo index (list index) ++ (list (index + todo)).getLast?.toList =
      (List.range' index (todo + 1)).flatMap list := by
  induction todo generalizing index with
  | zero =>
    rw [NovohtIterator.reads, Nat.add_zero, List.range'_one, List.flatMap_singleton]
    cases hlast : (list index).getLast? with
    | none => simp [List.getLast?_eq_none_iff.1 hlast]
    | some p => exact List.dropLast_append_getLast? p hlast
  | succ todo ih =>
    rw [NovohtIterator.reads, List.append_assoc, List.range'_succ, List.flatMap_cons,
      show index + (todo + 1) = index + 1 + todo by omega, ih]

/-- The loop misses the last node of the last bucket and no other one. -/
theorem nodes_eq_iterated (hsize : 1 ≤ t.size) :
    t.nodes = t.iterated ++ (t.kvpairs (t.size - 1)).getLast?.toList := by
  have hall := reads_append t.kvpairs (t.size - 1) 0
  rw [Nat.zero_add, Nat.sub_add_cancel hsize, ← List.range_eq_range'] at hall
  exact hall.symm

theorem iterated_of_last (hsize : 1 ≤ t.size) (hlast : t.kvpairs (t.size - 1) = []) :
    t.iterated = t.nodes := by
  rw [nodes_eq_iterated hsize, hlast, List.getLast?_nil, Option.toList_none, List.append_nil]

theorem length_iterated_iff (hsize : 1 ≤ t.size) :
    t.iterated.length = t.nodes.length ↔ t.kvpairs (t.size - 1) = [] := by
  rw [nodes_eq_iterated hsize, List.length_append]
  cases hlast : (t.kvpairs (t.size - 1)).getLast? with
  | none => simp [List.getLast?_eq_none_iff.1 hlast]
  | some p =>
    have hne : t.kvpairs (t.size - 1) ≠ [] := by
      intro he
      rw [he] at hlast
      cases hlast
    simp [hne]

theorem last_eq_nil_of_complete (hsize : 1 ≤ t.size) (h : t.Complete read want) :
    t.kvpairs (t.size - 1) = [] := by
  have hlen := ((complete_iff hsize).1 h).length_eq
  rwa [List.length_map, List.length_map, length_iterated_iff hsize] at hlen

theorem complete_self_iff (hsize : 1 ≤ t.size) (read : KVPair → α) :
    t.Complete read read ↔ t.kvpairs (t.size - 1) = [] := by
  refine ⟨last_eq_nil_of_complete hsize, fun hlast => (complete_iff hsize).2 ?_⟩
  rw [iterated_of_last hsize hlast]

theorem length_cstr_le (str : Str) : (cstr str).length ≤ str.length :=
  (List.takeWhile_prefix _).length_le

theorem cstr_eq_of_length (str : Str) (h : str.length ≤ (cstr str).length) : '\x00' ∉ str := by
  have he : cstr str = str :=
    (List.takeWhile_prefix _).eq_of_length (le_antisymm (length_cstr_le str) h)
  rw [← he]
  exact nul_not_mem_cstr str

/-- The characters of a node. -/
def chars (p : KVPair) : Nat := p.key.length + p.val.length

theorem chars_readPair_le (p : KVPair) : chars (NovohtIterator.readPair p) ≤ chars p :=
  Nat.add_le_add (length_cstr_le p.key) (length_cstr_le p.val)

theorem readPair_eq_iff :
    NovohtIterator.readPair p = p ↔ '\x00' ∉ p.key ∧ '\x00' ∉ p.val := by
  constructor
  · intro he
    rw [← he]
    exact ⟨nul_not_mem_cstr p.key, nul_not_mem_cstr p.val⟩
  · rintro ⟨hk, hv⟩
    rw [NovohtIterator.readPair, cstr_eq hk, cstr_eq hv]

theorem chars_readPair_lt (h : NovohtIterator.readPair p ≠ p) :
    chars (NovohtIterator.readPair p) < chars p := by
  refine lt_of_le_of_ne (chars_readPair_le p) fun he => h (readPair_eq_iff.2 ?_)
  have hk := length_cstr_le p.key
  have hv := length_cstr_le p.val
  simp only [chars, NovohtIterator.readPair] at he
  exact ⟨cstr_eq_of_length p.key (by omega), cstr_eq_of_length p.val (by omega)⟩

theorem readPair_perm {l : List KVPair} (h : (l.map NovohtIterator.readPair).Perm l) :
    ∀ p ∈ l, NovohtIterator.readPair p = p := by
  by_contra hne
  push Not at hne
  obtain ⟨p, hp, hne⟩ := hne
  have hlt := List.sum_lt_sum (fun p => chars (NovohtIterator.readPair p)) chars
    (fun p _ => chars_readPair_le p) ⟨p, hp, chars_readPair_lt hne⟩
  have hsum := (h.map chars).sum_eq
  rw [List.map_map] at hsum
  exact absurd hsum (ne_of_lt hlt)

theorem complete_pair_iff (hsize : 1 ≤ t.size) : t.Complete NovohtIterator.readPair id ↔
    t.kvpairs (t.size - 1) = [] ∧ ∀ p ∈ t.nodes, '\x00' ∉ p.key ∧ '\x00' ∉ p.val := by
  simp only [← readPair_eq_iff]
  constructor
  · intro h
    have hlast := last_eq_nil_of_complete hsize h
    have hperm := (complete_iff hsize).1 h
    rw [iterated_of_last hsize hlast, List.map_id] at hperm
    exact ⟨hlast, readPair_perm hperm⟩
  · rintro ⟨hlast, hpair⟩
    rw [complete_iff hsize, iterated_of_last hsize hlast, List.map_congr_left hpair]
    exact .refl _

end Complete

/-- The loops return every pair once exactly when the last bucket is empty and, for the iterator of
pairs, no key and no value has a zero character. -/
theorem iterators_complete (t : NoVoHT) (hsize : 1 ≤ t.size) :
    (t.Complete KVPair.key KVPair.key ↔ t.kvpairs (t.size - 1) = []) ∧
      (t.Complete KVPair.val KVPair.val ↔ t.kvpairs (t.size - 1) = []) ∧
      (t.Complete NovohtIterator.readPair id ↔ t.kvpairs (t.size - 1) = [] ∧
        ∀ p ∈ t.nodes, '\x00' ∉ p.key ∧ '\x00' ∉ p.val) :=
  ⟨complete_self_iff hsize _, complete_self_iff hsize _, complete_pair_iff hsize⟩

/-- Two keys in the first of two buckets. -/
theorem iterators_complete_first :
    let t : NoVoHT := ⟨2, 2, fun i => if i = 0 then
      [⟨"a".toList, "1".toList⟩, ⟨"b".toList, "2".toList⟩] else []⟩
    t.Complete KVPair.key KVPair.key ∧ t.Complete KVPair.val KVPair.val ∧
      t.Complete NovohtIterator.readPair id := by
  intro t
  obtain ⟨hkey, hval, hpair⟩ := iterators_complete t (by decide)
  exact ⟨hkey.2 rfl, hval.2 rfl, hpair.2 ⟨rfl, by decide⟩⟩

/-- The only pair of a table of one bucket is not returned. -/
theorem not_complete_last :
    let t := (put (fun _ => 0) (fun _ _ => false) { size := 1 } "a".toList "1".toList).1
    (NovohtIterator.new t.kvpairs t.size).hasNext = false ∧
      t.nodes = [⟨"a".toList, "1".toList⟩] ∧
      ¬ t.Complete KVPair.key KVPair.key ∧ ¬ t.Complete KVPair.val KVPair.val ∧
      ¬ t.Complete NovohtIterator.readPair id := by
  intro t
  have hsize : 1 ≤ t.size := by decide
  simp only [complete_iff hsize]
  exact ⟨by decide, by decide, by decide, by decide, by decide⟩

end NoVoHT

end MatrixZht
