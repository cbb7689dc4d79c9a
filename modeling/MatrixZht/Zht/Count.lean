import Mathlib.Data.Finset.Card
import MatrixZht.Zht.Novoht

namespace MatrixZht.NoVoHT

def getSize (t : NoVoHT) : Int := t.numEl

/-- The keys that are stored after an operation. -/
def keysStep (keys : Finset Str) : Op → Finset Str
  | .put k _ => insert k keys
  | .append k _ => insert k keys
  | .remove k => keys.erase k
  | .get _ => keys

def keysOf (ops : List Op) : Finset Str := ops.foldl keysStep ∅

section Count

variable (hash : Str → Nat) (resizeDue : Int → Nat → Bool)

/-- The operation replaces the bucket array. -/
def resizes (t : NoVoHT) : Op → Bool
  | .put _ _ => resizeDue t.numEl t.size
  | _ => false

/-- `getSize` is the number of nodes after each of the operations. -/
def CountExact (initSize : Nat) (ops : List Op) : Prop :=
  ∀ pre, pre <+: ops → (run hash resizeDue { size := initSize } pre).1.getSize =
    (run hash resizeDue { size := initSize } pre).1.nodes.length

/-- No `put` finds as many keys as make the first bucket array too small. -/
def NoneDue (initSize : Nat) (ops : List Op) : Prop :=
  ∀ pre k v, pre ++ [.put k v] <+: ops → resizeDue (keysOf pre).card initSize = false

end Count

/-- The table has one node for each of the keys. -/
structure Counted (hash : Str → Nat) (t : NoVoHT) (keys : Finset Str) : Prop where
  wf : t.WF hash
  holds : ∃ m : Store, t.Holds hash m ∧ ∀ k, k ∈ keys ↔ (m k).isSome

section Step

variable {hash : Str → Nat} {resizeDue : Int → Nat → Bool} {t : NoVoHT} {keys : Finset Str}
  {m : Store} {k v : Str} {c : List KVPair}

theorem putChain_added (k v : Str) (c : List KVPair) :
    (putChain k v c).2 = true ↔ k ∉ c.map KVPair.key := by
  fun_induction putChain k v c with
  | case1 => simp
  | case2 cur h => simp [h]
  | case3 cur h => simp [h]
  | case4 cur next rest h => simp [h]
  | case5 cur next rest h r ih => simp only [r, ih, List.map_cons, List.mem_cons, h, false_or]

theorem Counted.mem_iff (h : Counted hash t keys) (k : Str) :
    k ∈ keys ↔ k ∈ (t.kvpairs (hash k % t.size)).map KVPair.key := by
  obtain ⟨m, hm, hkeys⟩ := h.holds
  rw [hkeys k, Option.isSome_iff_exists, List.mem_map]
  constructor
  · rintro ⟨v, hv⟩
    exact ⟨⟨k, v⟩, (hm k v).1 hv, rfl⟩
  · rintro ⟨⟨_, v⟩, hp, rfl⟩
    exact ⟨v, (hm _ v).2 hp⟩

theorem Counted.length_nodes (h : Counted hash t keys) : t.nodes.length = keys.card := by
  have hset : (t.nodes.map KVPair.key).toFinset = keys := by
    ext k
    rw [List.mem_toFinset, h.mem_iff, List.mem_map, List.mem_map]
    constructor
    · rintro ⟨p, hp, rfl⟩
      exact ⟨p, (mem_nodes h.wf).1 hp, rfl⟩
    · rintro ⟨p, hp, rfl⟩
      exact ⟨p, (mem_nodes h.wf).2 hp, rfl⟩
  rw [← hset, List.toFinset_card_of_nodup (nodes_nodup h.wf), List.length_map]

theorem mem_insert_iff (h : ∀ k, k ∈ keys ↔ (m k).isSome) (k v k' : Str) :
    k' ∈ insert k keys ↔ (m.insert k v k').isSome := by
  rw [Finset.mem_insert]
  by_cases hk : k' = k
  · subst hk
    simp
  · simp [hk, Store.insert_of_ne hk, h]

theorem keys_mapStep (h : ∀ k, k ∈ keys ↔ (m k).isSome) (op : Op) (k : Str) :
    k ∈ keysStep keys op ↔ ((mapStep m op).1 k).isSome := by
  cases op with
  | put k' v => exact mem_insert_iff h k' v k
  | append k' aval => exact mem_insert_iff h k' _ k
  | remove k' =>
    have herase : k ∈ keys.erase k' ↔ (m.remove k' k).isSome := by
      rw [Finset.mem_erase, h k, Store.remove]
      by_cases hk : k = k'
      · simp [hk]
      · simp [hk]
    rw [keysStep, mapStep]
    split
    · exact herase
    · next hnone =>
      have hk' : m k' = none := Option.not_isSome_iff_eq_none.1 hnone
      rw [herase, Store.remove, Function.update_eq_self_iff.2 hk'.symm]
  | get k' => exact h k

theorem Counted.step (h : Counted hash t keys) (op : Op) :
    Counted hash (t.step hash resizeDue op).1 (keysStep keys op) := by
  obtain ⟨m, hm, hkeys⟩ := h.holds
  obtain ⟨ht', hm'⟩ := @step_holds hash resizeDue t m h.wf hm op
  exact ⟨ht', _, hm', keys_mapStep hkeys op⟩

theorem Counted.resize (h : Counted hash t keys) :
    Counted hash (t.resize hash (t.size * 2)) keys := by
  obtain ⟨m, hm, hkeys⟩ := h.holds
  have hsize := h.wf.size_pos
  exact ⟨resize_wf h.wf (by omega), m, resize_holds h.wf hm _, hkeys⟩

theorem Counted.appendChain_eq_none (h : Counted hash t keys) (k aval : Str) :
    appendChain k aval (t.kvpairs (hash k % t.size)) = none ↔ k ∉ keys := by
  rw [NoVoHT.appendChain_eq_none, h.mem_iff, List.mem_map]
  simp

theorem Counted.removeChain_eq_none (h : Counted hash t keys) (k : Str) :
    removeChain k (t.kvpairs (hash k % t.size)) = none ↔ k ∉ keys := by
  rw [removeChain_eq_removeNext, removeNext_eq_none, h.mem_iff, List.mem_map]
  simp

theorem Counted.numEl_step (h : Counted hash t keys) (resizeDue : Int → Nat → Bool) (op : Op) :
    (t.step hash resizeDue op).1.numEl + keys.card =
      (if resizes resizeDue t op then 0 else t.numEl) + (keysStep keys op).card := by
  cases op with
  | put k v =>
    obtain ⟨t', ht', hcounted, hbase⟩ : ∃ t' : NoVoHT,
        (if resizeDue t.numEl t.size then t.resize hash (t.size * 2) else t) = t' ∧
          Counted hash t' keys ∧
            t'.numEl = if resizes resizeDue t (.put k v) then 0 else t.numEl := by
      refine ⟨_, rfl, ?_⟩
      split
      · next hdue => exact ⟨h.resize, (if_pos hdue).symm⟩
      · next hdue => exact ⟨h, (if_neg hdue).symm⟩
    have hadd := putChain_added k v (t'.kvpairs (hash k % t'.size))
    rw [← hcounted.mem_iff] at hadd
    rw [← hbase]
    simp only [NoVoHT.step, put, ht', setBucket, hadd, keysStep]
    by_cases hk : k ∈ keys
    · rw [Finset.insert_eq_of_mem hk, if_neg (by simpa using hk)]
    · rw [Finset.card_insert_of_notMem hk, if_pos hk]
      omega
  | append k aval =>
    have hnone := h.appendChain_eq_none k aval
    simp only [NoVoHT.step, append, resizes, Bool.false_eq_true, if_false, keysStep]
    cases hr : appendChain k aval (t.kvpairs (hash k % t.size)) with
    | none =>
      rw [Finset.card_insert_of_notMem (hnone.1 hr)]
      simp only [setBucket]
      omega
    | some chain =>
      have hk : k ∈ keys := by
        by_contra hk
        simp [hnone.2 hk] at hr
      rw [Finset.insert_eq_of_mem hk]
      rfl
  | remove k =>
    have hnone := h.removeChain_eq_none k
    simp only [NoVoHT.step, remove, resizes, Bool.false_eq_true, if_false, keysStep]
    cases hr : removeChain k (t.kvpairs (hash k % t.size)) with
    | none => rw [Finset.erase_eq_of_notMem (hnone.1 hr)]
    | some chain =>
      have hk : k ∈ keys := by
        by_contra hk
        simp [hnone.2 hk] at hr
      have hcard := Finset.card_erase_add_one hk
      simp only [setBucket]
      omega
  | get k => rfl

theorem size_step {op : Op} (h : resizes resizeDue t op = false) :
    (t.step hash resizeDue op).1.size = t.size := by
  cases op with
  | put k v =>
    rw [resizes] at h
    simp only [NoVoHT.step, put, h]
    rfl
  | append k aval =>
    rw [NoVoHT.step, append]
    split <;> rfl
  | remove k =>
    rw [NoVoHT.step, remove]
    split <;> rfl
  | get k => rfl

end Step

section Run

variable {hash : Str → Nat} {resizeDue : Int → Nat → Bool} {initSize : Nat} {ops pre : List Op}

theorem run_concat (t : NoVoHT) (ops : List Op) (op : Op) :
    (run hash resizeDue t (ops ++ [op])).1 =
      ((run hash resizeDue t ops).1.step hash resizeDue op).1 := by
  induction ops generalizing t with
  | nil => rfl
  | cons a ops ih => exact ih _

theorem keysOf_concat (ops : List Op) (op : Op) :
    keysOf (ops ++ [op]) = keysStep (keysOf ops) op := by
  rw [keysOf, List.foldl_append]
  rfl

theorem card_keysOf_le (ops : List Op) : (keysOf ops).card ≤ ops.length := by
  induction ops using List.reverseRecOn with
  | nil => exact Nat.le_refl 0
  | append_singleton ops op ih =>
    rw [keysOf_concat, List.length_append, List.length_singleton]
    cases op with
    | put k v => exact (Finset.card_insert_le k _).trans (Nat.succ_le_succ ih)
    | append k aval => exact (Finset.card_insert_le k _).trans (Nat.succ_le_succ ih)
    | remove k => exact (Finset.card_erase_le).trans (ih.trans (Nat.le_succ _))
    | get k => exact ih.trans (Nat.le_succ _)

theorem counted_run (hash : Str → Nat) (resizeDue : Int → Nat → Bool) (hsize : 1 ≤ initSize)
    (ops : List Op) :
    Counted hash (run hash resizeDue { size := initSize } ops).1 (keysOf ops) := by
  induction ops using List.reverseRecOn with
  | nil => exact ⟨wf_empty hash hsize, _, holds_empty hash initSize, by simp [keysOf]⟩
  | append_singleton ops op ih =>
    rw [run_concat, keysOf_concat]
    exact ih.step op

theorem length_run (hsize : 1 ≤ initSize) (ops : List Op) :
    (run hash resizeDue { size := initSize } ops).1.nodes.length = (keysOf ops).card :=
  (counted_run hash resizeDue hsize ops).length_nodes

theorem CountExact.of_prefix (h : CountExact hash resizeDue initSize ops) (hpre : pre <+: ops) :
    CountExact hash resizeDue initSize pre := fun pre' hpre' => h pre' (hpre'.trans hpre)

theorem NoneDue.of_prefix (h : NoneDue resizeDue initSize ops) (hpre : pre <+: ops) :
    NoneDue resizeDue initSize pre := fun pre' k v hpre' => h pre' k v (hpre'.trans hpre)

theorem NoneDue.run_eq (h : NoneDue resizeDue initSize ops) (hash : Str → Nat)
    (hsize : 1 ≤ initSize) :
    (run hash resizeDue { size := initSize } ops).1.size = initSize ∧
      (run hash resizeDue { size := initSize } ops).1.numEl = (keysOf ops).card := by
  induction ops using List.reverseRecOn with
  | nil => exact ⟨rfl, rfl⟩
  | append_singleton ops op ih =>
    obtain ⟨hs, hn⟩ := ih (h.of_prefix (List.prefix_append ops [op]))
    have hno : resizes resizeDue (run hash resizeDue { size := initSize } ops).1 op = false := by
      cases op with
      | put k v =>
        rw [resizes, hs, hn]
        exact h ops k v (List.prefix_refl _)
      | _ => rfl
    have hstep := (counted_run hash resizeDue hsize ops).numEl_step resizeDue op
    rw [run_concat, keysOf_concat, size_step hno]
    rw [hno, if_neg (by decide)] at hstep
    exact ⟨hs, by omega⟩

theorem NoneDue.countExact (hsize : 1 ≤ initSize) (h : NoneDue resizeDue initSize ops) :
    CountExact hash resizeDue initSize ops := by
  intro pre hpre
  rw [getSize, ((h.of_prefix hpre).run_eq hash hsize).2, length_run hsize]

/-- The first resize makes the counter wrong. -/
theorem CountExact.noneDue (hsize : 1 ≤ initSize) (hratio : resizeDue 0 initSize = false)
    (h : CountExact hash resizeDue initSize ops) : NoneDue resizeDue initSize ops := by
  induction ops using List.reverseRecOn with
  | nil =>
    intro pre k v hpre
    simp at hpre
  | append_singleton ops op ih =>
    have hops := ih (h.of_prefix (List.prefix_append ops [op]))
    intro pre k v hpre
    rcases List.prefix_concat_iff.1 hpre with he | hpre
    · obtain ⟨rfl, hop⟩ := List.append_inj' he rfl
      cases hop
      by_contra hdue
      obtain ⟨hs, hn⟩ := hops.run_eq hash hsize
      have hcount := h (pre ++ [.put k v]) (List.prefix_refl _)
      have hstep := (counted_run hash resizeDue hsize pre).numEl_step resizeDue (.put k v)
      rw [getSize, length_run hsize, run_concat, keysOf_concat] at hcount
      rw [if_pos (by rw [resizes, hs, hn]; simpa using hdue)] at hstep
      have hzero : (keysOf pre).card = 0 := by omega
      rw [hzero] at hdue
      exact hdue hratio
    · exact hops pre k v hpre

end Run

/-- A ratio is positive when a table without nodes is not too small. Then `getSize` is exact as
long as no `put` resizes the table, and wrong from the first one that does. -/
theorem countExact_iff (hash : Str → Nat) (resizeDue : Int → Nat → Bool) (initSize : Nat)
    (hsize : 1 ≤ initSize) (hratio : resizeDue 0 initSize = false) (ops : List Op) :
    CountExact hash resizeDue initSize ops ↔ NoneDue resizeDue initSize ops :=
  ⟨fun h => h.noneDue hsize hratio, fun h => h.countExact hsize⟩

theorem countExact_below_ratio :
    CountExact (fun _ => 7) (fun numEl size => decide (numEl ≥ size)) 2
      [.put "a".toList "1".toList, .put "b".toList "2".toList] := by
  refine (countExact_iff (fun _ => 7) (fun numEl size => decide (numEl ≥ size)) 2 (by decide)
    (by decide) _).2 fun pre k v hpre => ?_
  have hlen := hpre.length_le
  have hcard := card_keysOf_le pre
  rw [List.length_append, List.length_singleton, List.length_cons, List.length_singleton] at hlen
  rw [decide_eq_false_iff_not]
  omega

/-- The second `put` resizes the table: there are two nodes, and one is counted. When both are
removed, the counter is negative. -/
theorem negative_size_after_resize :
    let hash : Str → Nat := fun _ => 7
    let resizeDue : Int → Nat → Bool := fun numEl size => decide (numEl ≥ size)
    let puts : List Op := [.put "a".toList "1".toList, .put "b".toList "2".toList]
    let t := (run hash resizeDue { size := 1 } puts).1
    let t' := (run hash resizeDue { size := 1 }
      (puts ++ [.remove "a".toList, .remove "b".toList])).1
    t.getSize = 1 ∧ t.nodes.length = 2 ∧ t'.getSize = -1 ∧
      ¬ CountExact hash resizeDue 1 puts := by
  intro hash resizeDue puts t t'
  have hsize : t.getSize = 1 := by decide
  have hlen : t.nodes.length = 2 := by decide
  refine ⟨hsize, hlen, by decide, fun h => ?_⟩
  have hcount : t.getSize = t.nodes.length := h puts (List.prefix_refl _)
  rw [hsize, hlen] at hcount
  exact absurd hcount (by decide)

end MatrixZht.NoVoHT
