import Std.Data.TreeMap.Lemmas
import Mathlib.Data.List.Basic

namespace MatrixZht.Lib

variable {α β : Type*} {pairs pairs' : List (α × β)} {k : α} {v : β}

/-- No key stands with two values. -/
def Functional (pairs : List (α × β)) : Prop :=
  ∀ k v v', (k, v) ∈ pairs → (k, v') ∈ pairs → v = v'

/-- The pairs are inserted in order; the entry a key already has is kept. -/
def insertPairs [Ord α] (pairs : List (α × β)) (m : Std.TreeMap α β) : Std.TreeMap α β :=
  pairs.foldl (fun m p => m.insertIfNew p.1 p.2) m

section Lookup

variable [BEq α] [LawfulBEq α]

theorem mem_of_lookup_eq_some (h : pairs.lookup k = some v) : (k, v) ∈ pairs := by
  obtain ⟨l₁, l₂, rfl, _⟩ := List.lookup_eq_some_iff.1 h
  exact List.mem_append_right _ List.mem_cons_self

theorem Functional.lookup_eq_some_iff (h : Functional pairs) :
    pairs.lookup k = some v ↔ (k, v) ∈ pairs := by
  refine ⟨mem_of_lookup_eq_some, fun hmem => ?_⟩
  cases hl : pairs.lookup k with
  | none => simpa using List.lookup_eq_none_iff.1 hl (k, v) hmem
  | some v' => rw [h k v' v (mem_of_lookup_eq_some hl) hmem]

theorem Functional.lookup_eq (h : Functional pairs) (hsame : ∀ p, p ∈ pairs ↔ p ∈ pairs')
    (k : α) : pairs.lookup k = pairs'.lookup k := by
  have h' : Functional pairs' := fun k v v' hv hv' =>
    h k v v' ((hsame _).2 hv) ((hsame _).2 hv')
  apply Option.ext
  intro v
  rw [h.lookup_eq_some_iff, h'.lookup_eq_some_iff, hsame]

end Lookup

section Map

variable [Ord α] [Std.TransOrd α] [Std.LawfulEqOrd α] [BEq α] [LawfulBEq α]

theorem getElem?_insertPairs (pairs : List (α × β)) (m : Std.TreeMap α β) (k : α) :
    (insertPairs pairs m)[k]? = m[k]?.or (pairs.lookup k) := by
  induction pairs generalizing m with
  | nil => simp [insertPairs]
  | cons p pairs ih =>
    have hcons : insertPairs (p :: pairs) m = insertPairs pairs (m.insertIfNew p.1 p.2) := rfl
    rw [hcons, ih, Std.TreeMap.getElem?_insertIfNew]
    obtain ⟨k', v⟩ := p
    by_cases hk : k' = k
    · subst hk
      by_cases hm : k' ∈ m
      · simp [hm]
      · simp [hm]
    · have hb : (k == k') = false := by simpa using Ne.symm hk
      simp [hk, List.lookup_cons, hb]

/-- The order and the number of insertions do not matter. -/
theorem Functional.values_insertPairs_eq (h : Functional pairs)
    (hsame : ∀ p, p ∈ pairs ↔ p ∈ pairs') :
    (insertPairs pairs ∅).values = (insertPairs pairs' ∅).values := by
  refine Std.TreeMap.Equiv.values_eq (.of_forall_constGet?_eq fun k => ?_)
  show (insertPairs pairs ∅)[k]? = (insertPairs pairs' ∅)[k]?
  rw [getElem?_insertPairs, getElem?_insertPairs, h.lookup_eq hsame]

end Map

end MatrixZht.Lib
