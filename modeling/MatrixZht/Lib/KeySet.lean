import Mathlib.Data.Finset.Card
import Mathlib.Data.List.Sort

namespace MatrixZht.Lib

variable {α : Type*} {key : α → Nat} {l : List α} {x y : α}

/-- Insertion into an ordered set whose elements are compared by a key: an element whose key is
present is not inserted. -/
def insertKey (key : α → Nat) (x : α) : List α → List α
  | [] => [x]
  | y :: l =>
    if key x < key y then x :: y :: l
    else if key y < key x then y :: insertKey key x l
    else y :: l

/-- The keys of a set grow. -/
abbrev KeySorted (key : α → Nat) (l : List α) : Prop := l.Pairwise fun x y => key x < key y

theorem insertKey_of_forall_lt (h : ∀ y ∈ l, key x < key y) : insertKey key x l = x :: l := by
  cases l with
  | nil => rfl
  | cons y l => rw [insertKey, if_pos (h y List.mem_cons_self)]

theorem insertKey_cons_of_eq (h : key x = key y) (l : List α) :
    insertKey key x (y :: l) = y :: l := by
  rw [insertKey, if_neg (by omega), if_neg (by omega)]

theorem length_insertKey_le (key : α → Nat) (x : α) (l : List α) :
    (insertKey key x l).length ≤ l.length + 1 := by
  induction l with
  | nil => exact Nat.le_refl 1
  | cons y l ih =>
    rw [insertKey]
    split
    · exact Nat.le_refl _
    · split
      · exact Nat.succ_le_succ ih
      · exact Nat.le_succ _

theorem mem_insertKey (h : y ∈ insertKey key x l) : y = x ∨ y ∈ l := by
  induction l with
  | nil => exact .inl (List.mem_singleton.1 h)
  | cons z l ih =>
    rw [insertKey] at h
    split at h
    · exact List.mem_cons.1 h
    · split at h
      · rcases List.mem_cons.1 h with rfl | h
        · exact .inr List.mem_cons_self
        · exact (ih h).imp_right (List.mem_cons_of_mem z)
      · exact .inr h

theorem KeySorted.insertKey (h : KeySorted key l) (x : α) : KeySorted key (insertKey key x l) := by
  induction l with
  | nil => exact List.pairwise_singleton ..
  | cons z l ih =>
    obtain ⟨hz, hl⟩ := List.pairwise_cons.1 h
    rw [Lib.insertKey]
    split
    · next hlt =>
      refine List.pairwise_cons.2 ⟨fun y hy => ?_, h⟩
      rcases List.mem_cons.1 hy with rfl | hy
      · exact hlt
      · exact hlt.trans (hz y hy)
    · split
      · next hlt =>
        refine List.pairwise_cons.2 ⟨fun y hy => ?_, ih hl⟩
        rcases mem_insertKey hy with rfl | hy
        · exact hlt
        · exact hz y hy
      · exact h

theorem KeySorted.length_le (h : KeySorted key l) {keys : Finset ℕ} (hl : ∀ x ∈ l, key x ∈ keys) :
    l.length ≤ keys.card := by
  have hnodup : (l.map key).Nodup := List.pairwise_map.2 (h.imp Nat.ne_of_lt)
  rw [← List.length_map key, ← List.toFinset_card_of_nodup hnodup]
  apply Finset.card_le_card
  intro n hn
  obtain ⟨x, hx, rfl⟩ := List.mem_map.1 (List.mem_toFinset.1 hn)
  exact hl x hx

theorem insertKey_filter [DecidableEq α] {p : α → Prop} [DecidablePred p] (hl : KeySorted key l)
    (hx : x ∈ l) :
    insertKey key x (l.filter fun y => p y) = l.filter fun y => p y ∨ y = x := by
  induction l with
  | nil => cases hx
  | cons y l ih =>
    obtain ⟨hy, hl⟩ := List.pairwise_cons.1 hl
    rcases List.mem_cons.1 hx with rfl | hmem
    · have hrest : (l.filter fun y => p y ∨ y = x) = l.filter fun y => p y := by
        apply List.filter_congr
        intro z hz
        have hne : z ≠ x := by
          rintro rfl
          exact Nat.lt_irrefl _ (hy z hz)
        simp [hne]
      have hfull : ((x :: l).filter fun y => p y ∨ y = x) = x :: l.filter fun y => p y := by
        rw [List.filter_cons_of_pos (by simp), hrest]
      rw [hfull]
      by_cases hp : p x
      · rw [List.filter_cons_of_pos (by simpa using hp)]
        exact insertKey_cons_of_eq rfl _
      · rw [List.filter_cons_of_neg (by simpa using hp)]
        exact insertKey_of_forall_lt fun z hz => hy z (List.mem_of_mem_filter hz)
    · have hlt := hy x hmem
      have hne : y ≠ x := by
        rintro rfl
        exact Nat.lt_irrefl _ hlt
      by_cases hp : p y
      · rw [List.filter_cons_of_pos (by simpa using hp),
          List.filter_cons_of_pos (by simp [hp]), insertKey, if_neg (by omega), if_pos hlt,
          ih hl hmem]
      · rw [List.filter_cons_of_neg (by simpa using hp),
          List.filter_cons_of_neg (by simp [hp, hne]), ih hl hmem]

end MatrixZht.Lib
